import Plinth.Refine.Memory
import Plinth.Refine.Reclaim

/-!
# `Plinth.Refine.Exit`: the exit of a process

In the ledger an exit begins with the action `leave`: the capabilities of the process become
held ones, its boot frames and its address space belong to nobody. Then the loops of `on_exit`
settle the held capabilities.

* `reclaimLentCaps_path`: the borrowed ones go home.
* `reapReplies_path`: the callers that waited for a reply are woken.
* `reapEndpoints_path`: the waiters whose last peers these were are woken.
* `drainCaps_path`: the rest is drained.

Each loop runs over the table of the process. The held capabilities are those of the part of
the table that is left, as far as an earlier loop has not taken them, up to their order.
-/

set_option autoImplicit false

namespace Plinth

variable {g : Guard} {v : Ledger} {s : Kernel} {gone : Option ProcSlot} {core : Core}
  {proc : Process} {cap : Capability} {L K : List Capability} {dyingSlot : ProcSlot}

/-! ### The boot frames of the table -/

/-- The records of the boot frames are the same. -/
def SameBoot (P P' : Procs) : Prop := ∀ p, (P'.table p).bootFrames = (P.table p).bootFrames

theorem SameBoot.refl (P : Procs) : SameBoot P P := fun _ => rfl

theorem SameBoot.trans {P P' P'' : Procs} (h : SameBoot P P') (h' : SameBoot P' P'') :
    SameBoot P P'' := fun p => (h' p).trans (h p)

theorem SameBoot.setSlot {P : Procs} {p : ProcSlot} {x : Slot}
    (h : x.bootFrames = (P.table p).bootFrames) : SameBoot P (P.setSlot p x) := by
  intro q
  by_cases hq : q = p
  · subst hq
    rw [Procs.setSlot_table_self, h]
  · rw [Procs.setSlot_table_of_ne _ _ hq]

theorem wakeWith_boot (P : Procs) (p : ProcSlot) (status payload landing : Nat) :
    SameBoot P (P.wakeWith p status payload landing) := SameBoot.setSlot rfl

theorem takeReclaimLanding_boot (P : Procs) (p : ProcSlot) :
    SameBoot P (P.takeReclaimLanding p).2 := SameBoot.setSlot rfl

theorem withLenderCaps_boot {α : Type} {P P' : Procs} {lender : ProcSlot}
    {f : CapTable → Option (α × CapTable)} {a : α}
    (h : P.withLenderCaps lender f = some (some (a, P'))) : SameBoot P P' := by
  unfold Procs.withLenderCaps at h
  split at h
  · simp only [Option.some.injEq] at h
    obtain ⟨x, t, -, -, rfl⟩ := Procs.onTable_eq_some.mp h
    exact SameBoot.setSlot rfl
  · split at h
    · simp only [Option.some.injEq] at h
      obtain ⟨x, t, -, -, rfl⟩ := Procs.onCurrent_eq_some.mp h
      exact SameBoot.refl P
    · cases h

namespace Kernel

theorem reclaimLentCap_boot (s : Kernel) (cap : Capability) :
    SameBoot s.procs (reclaimLentCap dyingSlot s cap).procs := by
  unfold reclaimLentCap
  split
  · exact SameBoot.refl _
  · rename_i o home _
    have hhome : SameBoot s.procs (s.reclaimCapHome cap o home).2.procs := by
      unfold reclaimCapHome
      split
      · exact SameBoot.refl _
      · exact SameBoot.refl _
      · rename_i landing P hlender
        exact withLenderCaps_boot hlender
    split
    · rename_i landing s' hr
      rw [hr] at hhome
      refine hhome.trans ?_
      unfold Procs.setReclaimLanding
      dsimp only
      split
      · exact SameBoot.setSlot rfl
      · exact SameBoot.refl _
    · rename_i s' hr
      rw [hr] at hhome
      exact hhome
    · rename_i s' hr
      rw [hr] at hhome
      exact hhome

theorem reapReply_boot (P : Procs) (cap : Capability) : SameBoot P (reapReply P cap) := by
  unfold reapReply
  split
  · rename_i c _
    split
    · exact (takeReclaimLanding_boot P c).trans (wakeWith_boot _ c ipcPeerDied 0 noCap)
    · exact SameBoot.refl _
  · exact SameBoot.refl _

/-! ### Borrowed capabilities go home -/

/-- The loop of `reclaim_lent_caps`. -/
theorem reclaimLentCaps_path (hrep : Rep s gone v) (hbase : v.Base) (htransit : v.transit = none)
    (hheld : v.held.Perm (L ++ K))
    (hstrand : strandsCaps dyingSlot s L = true → ∀ v cap, g.strand v cap) :
    ∃ P held, Path g v { v with proc := P, held := held } ∧
      Rep (L.foldl (reclaimLentCap dyingSlot) s) gone { v with proc := P, held := held } ∧
      held.Perm ((L.filter fun cap => (reclaimTarget cap dyingSlot).isNone) ++ K) ∧
      SameBoot s.procs (L.foldl (reclaimLentCap dyingSlot) s).procs := by
  induction L generalizing s v K with
  | nil => exact ⟨v.proc, v.held, Relation.ReflTransGen.refl, hrep, hheld, SameBoot.refl _⟩
  | cons cap L ih =>
    have hboot : SameBoot s.procs (reclaimLentCap dyingSlot s cap).procs :=
      reclaimLentCap_boot s cap
    have hrest : strandsCaps dyingSlot (reclaimLentCap dyingSlot s cap) L = true →
        ∀ v cap, g.strand v cap := by
      intro hs
      refine hstrand ?_
      unfold strandsCaps
      rw [hs, Bool.or_true]
    cases htarget : reclaimTarget cap dyingSlot with
    | none =>
      have hstep : reclaimLentCap dyingSlot s cap = s := by
        unfold reclaimLentCap
        rw [htarget]
      rw [hstep] at hrest
      obtain ⟨P, held, hpath, hrep', hperm, hboot'⟩ := ih hrep hbase htransit
        (hheld.trans List.perm_middle.symm) hrest
      refine ⟨P, held, hpath, ?_, ?_, ?_⟩
      · rw [List.foldl_cons, hstep]
        exact hrep'
      · rw [List.filter_cons_of_pos (by rw [htarget]; rfl)]
        exact hperm.trans List.perm_middle
      · rw [List.foldl_cons, hstep]
        exact hboot'
    | some r =>
      obtain ⟨o, home⟩ := r
      have horder : Path g v { v with held := cap :: (L ++ K) } :=
        Relation.ReflTransGen.single (Act.table (TableAct.reorder hheld.symm))
      have hrep₁ : Rep s gone { v with held := cap :: (L ++ K) } := hrep.reorder hheld.symm
      have hbase₁ := horder.base hbase
      rw [List.filter_cons_of_neg (by rw [htarget]; exact Bool.false_ne_true), List.foldl_cons]
      rcases reclaimCapHome_path (g := g) hrep₁ hbase₁ htransit rfl htarget with
        ⟨landing, proc', hland, hhome, hrep₂⟩ | ⟨hfull, hless, hsame, hgone, hrep₂⟩
      · have hstep : reclaimLentCap dyingSlot s cap = { (s.reclaimCapHome cap o home).2 with
            procs := (s.reclaimCapHome cap o home).2.procs.setReclaimLanding o.lender landing
              } := by
          unfold reclaimLentCap
          rw [htarget]
          dsimp only
          rw [show s.reclaimCapHome cap o home = (.landed landing, (s.reclaimCapHome cap o home).2)
            from Prod.ext hland rfl]
        have hlanded := hrep₂.procs.setReclaimLanding (p := o.lender)
          (by dsimp only; rw [Function.update_self]; exact Option.some_ne_none proc') landing
        rw [hstep] at hrest hboot ⊢
        obtain ⟨P, held, hpath, hrep', hperm, hboot'⟩ := ih
          (s := { (s.reclaimCapHome cap o home).2 with
            procs := (s.reclaimCapHome cap o home).2.procs.setReclaimLanding o.lender landing })
          (v := { v with proc := Function.update v.proc o.lender (some proc'), held := L ++ K })
          ⟨hlanded, hrep₂.ipc, hrep₂.mem, hrep₂.rings, hrep₂.devs⟩
          (Path.base (horder.trans hhome) hbase) htransit (List.Perm.refl _) hrest
        exact ⟨P, held, (horder.trans hhome).trans hpath, hrep', hperm, hboot.trans hboot'⟩
      · have hstep : reclaimLentCap dyingSlot s cap = s := by
          unfold reclaimLentCap
          rw [htarget]
          dsimp only
          rw [show s.reclaimCapHome cap o home = (.lenderFull, s) from Prod.ext hless hsame]
        have hpath₂ := hgone (hstrand (by
          unfold strandsCaps
          rw [hfull, Bool.true_or]) _ _)
        rw [hstep] at hrest ⊢
        obtain ⟨P, held, hpath, hrep', hperm, hboot'⟩ := ih
          (v := { v with held := L ++ K }) hrep₂
          (Path.base (horder.trans hpath₂) hbase) htransit (List.Perm.refl _) hrest
        exact ⟨P, held, (horder.trans hpath₂).trans hpath, hrep', hperm, hboot'⟩

/-! ### Callers that wait for a reply -/

/-- The capability is a reply capability. -/
def isReply (cap : Capability) : Bool :=
  match cap.object with
  | .reply _ => true
  | _ => false

/-- The reply half of the first loop of `reap_dying`. -/
theorem reapReplies_path {keep : Capability → Bool} (hkeep : ∀ cap, isReply cap = true →
      keep cap = true) (hrep : Rep s gone v) (hbase : v.Base) (hawake : v.awake = [])
    (hdied : ∀ cap ∈ L, ∀ c, cap.object = .reply c → g.Reaps c)
    (hheld : v.held.Perm (L.filter keep ++ K)) :
    ∃ state mail held, Path g v { v with state := state, mail := mail, held := held } ∧
      Rep { s with procs := L.foldl reapReply s.procs } gone
        { v with state := state, mail := mail, held := held } ∧
      held.Perm ((L.filter fun cap => keep cap && !isReply cap) ++ K) ∧
      SameBoot s.procs (L.foldl reapReply s.procs) := by
  induction L generalizing s v K with
  | nil => exact ⟨v.state, v.mail, v.held, Relation.ReflTransGen.refl, hrep, hheld, SameBoot.refl _⟩
  | cons cap L ih =>
    have hboot := reapReply_boot s.procs cap
    by_cases hreply : isReply cap = true
    · have hk := hkeep cap hreply
      rw [List.filter_cons_of_pos hk, List.cons_append] at hheld
      rw [List.filter_cons_of_neg (by rw [hk, hreply]; exact Bool.false_ne_true), List.foldl_cons]
      obtain ⟨c, hobj⟩ : ∃ c, cap.object = .reply c := by
        unfold isReply at hreply
        split at hreply
        · rename_i c hobj
          exact ⟨c, hobj⟩
        · cases hreply
      have horder : Path g v { v with held := cap :: (L.filter keep ++ K) } :=
        Relation.ReflTransGen.single (Act.table (TableAct.reorder hheld.symm))
      have hdrop : Path g v { v with held := L.filter keep ++ K, awake := c :: v.awake } :=
        horder.tail (Act.dropReply rfl hobj)
      have hblocked : v.state c = .blocked := by
        refine (hdrop.base hbase).registered.blocked ?_
        unfold Ledger.regs
        dsimp only
        rw [List.count_cons_self]
        omega
      have hwoken : Path g v (({ v with held := L.filter keep ++ K } : Ledger).woken c
          ⟨ipcPeerDied, 0, noCap⟩) :=
        hdrop.tail (Act.wake rfl (hdied cap List.mem_cons_self c hobj _ ⟨rfl, rfl⟩))
      obtain ⟨hstate, x, -, hx⟩ := hrep.procs.table_of_blocked hblocked
      have hstep : reapReply s.procs cap = (s.procs.takeReclaimLanding c).2.wakeWith c
          ipcPeerDied 0 noCap := by
        unfold reapReply
        rw [hobj]
        dsimp only
        rw [if_pos (by unfold Procs.isBlocked; rw [hstate]; rfl)]
      have hprocs := (hrep.procs.takeReclaimLanding (p := c)
        (by rw [hx]; exact Option.some_ne_none x)).wake hblocked ipcPeerDied 0 noCap
      rw [← hstep] at hprocs
      obtain ⟨state, mail, held, hpath, hrep', hperm, hboot'⟩ := ih
        (s := { s with procs := reapReply s.procs cap })
        (v := ({ v with held := L.filter keep ++ K } : Ledger).woken c ⟨ipcPeerDied, 0, noCap⟩)
        ⟨hprocs, hrep.ipc.same fun id right => by
          unfold peers
          dsimp only [Ledger.woken]
          rw [listTotal_perm _ hheld, listTotal_cons,
            Ipc.reachWeight_of_ne right (by rw [hobj]; exact fun heq => by cases heq),
            Nat.zero_add], hrep.mem, hrep.rings, hrep.devs⟩
        (hwoken.base hbase) hawake (fun cap hc => hdied cap (List.mem_cons_of_mem _ hc))
        (List.Perm.refl _)
      exact ⟨state, mail, held, hwoken.trans hpath, hrep', hperm, hboot.trans hboot'⟩
    · have hstep : reapReply s.procs cap = s.procs := by
        unfold isReply at hreply
        unfold reapReply
        split
        · rename_i c hobj
          rw [hobj] at hreply
          exact absurd rfl hreply
        · rfl
      rw [Bool.not_eq_true] at hreply
      rw [List.foldl_cons, hstep]
      by_cases hk : keep cap = true
      · rw [List.filter_cons_of_pos hk] at hheld
        rw [List.filter_cons_of_pos (by rw [hk, hreply]; rfl)]
        obtain ⟨state, mail, held, hpath, hrep', hperm, hboot'⟩ := ih hrep hbase hawake
          (fun cap hc => hdied cap (List.mem_cons_of_mem _ hc))
          (hheld.trans List.perm_middle.symm)
        exact ⟨state, mail, held, hpath, hrep', hperm.trans List.perm_middle, hboot'⟩
      · rw [List.filter_cons_of_neg hk] at hheld
        rw [List.filter_cons_of_neg (by rw [Bool.and_eq_true]; exact fun hand => hk hand.1)]
        exact ih hrep hbase hawake (fun cap hc => hdied cap (List.mem_cons_of_mem _ hc)) hheld

/-! ### Waiters without a peer -/

/-- `wake_all_stranded` empties a queue. -/
theorem wakeAllStranded_path (hrep : Rep s gone v) (hbase : v.Base) (hawake : v.awake = [])
    (id : EndpointId) (hdied : ∀ p ∈ v.queue id, g.Reaps p) {fuel : Nat}
      (hfuel : (v.queue id).length ≤ fuel) :
    ∃ state mail, Path g v { v with
        queue := Function.update v.queue id [], state := state, mail := mail } ∧
      Rep { s with
          procs := (wakeAllStranded id fuel (s.procs, s.ipc)).1
          ipc := (wakeAllStranded id fuel (s.procs, s.ipc)).2 } gone
        { v with queue := Function.update v.queue id [], state := state, mail := mail } ∧
      SameBoot s.procs (wakeAllStranded id fuel (s.procs, s.ipc)).1 := by
  have hdone : v.queue id = [] → Function.update v.queue id [] = v.queue := by
    intro hnil
    rw [← hnil, Function.update_eq_self]
  induction fuel generalizing s v with
  | zero =>
    have hnil := List.length_eq_zero_iff.mp (Nat.le_zero.mp hfuel)
    refine ⟨v.state, v.mail, ?_, ?_, SameBoot.refl _⟩
    · rw [hdone hnil]
    · rw [hdone hnil]
      exact hrep
  | succ fuel ih =>
    unfold wakeAllStranded
    cases hdeq : s.ipc.dequeueWaiter id with
    | none =>
      have hnil := Ipc.dequeueWaiter_none hrep.ipc.queue_rep hdeq
      refine ⟨v.state, v.mail, ?_, ?_, SameBoot.refl _⟩
      · rw [hdone hnil]
      · rw [hdone hnil]
        exact hrep
    | some r =>
      obtain ⟨p, ipc⟩ := r
      obtain ⟨rest, hqueue, hipc⟩ := hrep.ipc.dequeue hdeq
      have hact := Act.dequeue (g := g) hqueue
      have hblocked : v.state p = .blocked := by
        refine (hact.base hbase).registered.blocked ?_
        unfold Ledger.regs
        dsimp only
        rw [List.count_cons_self]
        omega
      obtain ⟨-, x, -, hx⟩ := hrep.procs.table_of_blocked hblocked
      have hwoken : Path g v (({ v with queue := Function.update v.queue id rest } :
          Ledger).woken p ⟨ipcPeerDied, 0, (s.procs.takeReclaimLanding p).1⟩) :=
        (Relation.ReflTransGen.single hact).tail
          (Act.wake rfl (hdied p (by rw [hqueue]; exact List.mem_cons_self) _ ⟨rfl, rfl⟩))
      have hprocs := (hrep.procs.takeReclaimLanding (p := p)
        (by rw [hx]; exact Option.some_ne_none x)).wake hblocked ipcPeerDied 0
          (s.procs.takeReclaimLanding p).1
      have hlen : rest.length ≤ fuel := by
        rw [hqueue, List.length_cons] at hfuel
        omega
      obtain ⟨state, mail, hpath, hrep', hboot⟩ := ih
        (s := { s with
          procs := (s.procs.takeReclaimLanding p).2.wakeWith p ipcPeerDied 0
            (s.procs.takeReclaimLanding p).1
          ipc := ipc })
        (v := ({ v with queue := Function.update v.queue id rest } : Ledger).woken p
          ⟨ipcPeerDied, 0, (s.procs.takeReclaimLanding p).1⟩)
        ⟨hprocs, hipc, hrep.mem, hrep.rings, hrep.devs⟩ (hwoken.base hbase) hawake
        (fun q hq => hdied q (by
          dsimp only [Ledger.woken] at hq
          rw [Function.update_self] at hq
          rw [hqueue]
          exact List.mem_cons_of_mem _ hq))
        (by dsimp only [Ledger.woken]; rw [Function.update_self]; exact hlen)
        (by
          dsimp only [Ledger.woken]
          rw [Function.update_self, Function.update_idem]
          exact fun h => by rw [h])
      dsimp only [Ledger.woken] at hpath hrep'
      rw [Function.update_idem] at hpath hrep'
      exact ⟨state, mail, hwoken.trans hpath, hrep', ((takeReclaimLanding_boot s.procs p).trans
        (wakeWith_boot _ p ipcPeerDied 0 _)).trans hboot⟩

/-- The waiters of an endpoint still have a peer once the held capabilities are gone. -/
def Attended (v : Ledger) (id : EndpointId) : Prop :=
  v.queue id ≠ [] →
    0 < listTotal (reachWeight id (peerRight (v.sendersWait id))) v.held →
      0 < liveTotal (reachWeight id (peerRight (v.sendersWait id))) v.proc

theorem dyingCount_eq (dying : CapTable) (id : EndpointId) (right : Rights) :
    dyingCount dying id right = listTotal (reachWeight id right) dying.iter := by
  unfold dyingCount
  induction dying.iter with
  | nil => rfl
  | cons cap caps ih =>
    rw [List.countP_cons, listTotal_cons, ih, Nat.add_comm]
    rfl

/-- A death strands the peers at an endpoint only if the dying process names it. -/
theorem deathStrandsPeers_names {dying : CapTable} {ep : Endpoint} {id : EndpointId}
    (h : ep.deathStrandsPeers (dyingCount dying id rightSend) (dyingCount dying id rightRecv)
      = true) : ∃ cap ∈ dying.iter, cap.object = .endpoint id := by
  have hpos : 0 < dyingCount dying id rightSend ∨ 0 < dyingCount dying id rightRecv := by
    unfold Endpoint.deathStrandsPeers at h
    simp only [Bool.or_eq_true, Bool.and_eq_true, decide_eq_true_eq] at h
    rcases h with h | h
    · exact Or.inl h.1
    · exact Or.inr h.1
  have hnames : ∀ right, 0 < dyingCount dying id right →
      ∃ cap ∈ dying.iter, cap.object = .endpoint id := by
    intro right hcount
    obtain ⟨cap, hcap, hreach⟩ := List.countP_pos_iff.mp hcount
    unfold reaches at hreach
    rw [Bool.and_eq_true, beq_iff_eq] at hreach
    exact ⟨cap, hcap, hreach.1⟩
  rcases hpos with h | h
  · exact hnames _ h
  · exact hnames _ h

/-- The body of the second loop of `reap_dying`. -/
theorem reapEndpoint_path (hrep : Rep s gone v) (hbase : v.Base) (hawake : v.awake = [])
    {dying : CapTable} (hcount : ∀ id right, dyingCount dying id right
      = listTotal (reachWeight id right) v.held) (id : EndpointId)
    (hdied : (∃ cap ∈ dying.iter, cap.object = .endpoint id) → ∀ p ∈ v.queue id, g.Reaps p) :
    ∃ queue state mail, Path g v { v with queue := queue, state := state, mail := mail } ∧
      Rep { s with
          procs := (reapEndpoint dying (s.procs, s.ipc) id).1
          ipc := (reapEndpoint dying (s.procs, s.ipc) id).2 } gone
        { v with queue := queue, state := state, mail := mail } ∧
      (∀ id', queue id' = v.queue id' ∨ queue id' = []) ∧
      Attended { v with queue := queue } id ∧
      SameBoot s.procs (reapEndpoint dying (s.procs, s.ipc) id).1 := by
  unfold reapEndpoint
  dsimp only
  split
  · rename_i hstrands
    have hnames : ∃ cap ∈ dying.iter, cap.object = .endpoint id := by
      rw [Bool.and_eq_true] at hstrands
      exact deathStrandsPeers_names hstrands.2
    have hlen : (v.queue id).length ≤ maxProcesses := by
      have hle := (hrep.ipc.queue_rep id).nodup.length_le_card
      rwa [Fintype.card_fin] at hle
    obtain ⟨state, mail, hpath, hrep', hboot⟩ := wakeAllStranded_path (g := g) hrep hbase hawake
      id (hdied hnames) hlen
    refine ⟨_, state, mail, hpath, hrep', fun id' => ?_, fun hne => ?_, hboot⟩
    · by_cases hid : id' = id
      · subst hid
        exact Or.inr (Function.update_self ..)
      · exact Or.inl (Function.update_of_ne hid ..)
    · exact absurd (Function.update_self ..) hne
  · rename_i hno
    refine ⟨v.queue, v.state, v.mail, Relation.ReflTransGen.refl, hrep, fun id' => Or.inl rfl,
      fun hne hheld => ?_, SameBoot.refl _⟩
    obtain ⟨q, hq⟩ := List.exists_mem_of_ne_nil _ hne
    have huse := (hbase.holders id q hq).1
    rw [hrep.ipc.inUse] at huse
    rw [huse, Bool.true_and, Bool.not_eq_true] at hno
    unfold Endpoint.deathStrandsPeers at hno
    rw [hcount, hcount, Bool.or_eq_false_iff] at hno
    have hsend := hrep.ipc.senders id
    have hrecv := hrep.ipc.receivers id
    unfold peers at hsend hrecv
    dsimp only at hheld ⊢
    cases hside : v.sendersWait id with
    | true =>
      rw [hside, show peerRight true = rightRecv from rfl] at hheld
      rw [show peerRight true = rightRecv from rfl]
      have hstrand := hno.2
      rw [decide_eq_true hheld, Bool.true_and, beq_eq_false_iff_ne] at hstrand
      omega
    | false =>
      rw [hside, show peerRight false = rightSend from rfl] at hheld
      rw [show peerRight false = rightSend from rfl]
      have hstrand := hno.1
      rw [decide_eq_true hheld, Bool.true_and, beq_eq_false_iff_ne] at hstrand
      omega

/-- The second loop of `reap_dying`. -/
theorem reapEndpoints_path (hrep : Rep s gone v) (hbase : v.Base) (hawake : v.awake = [])
    {dying : CapTable} (hcount : ∀ id right, dyingCount dying id right
      = listTotal (reachWeight id right) v.held)
    (hdied : ∀ id, (∃ cap ∈ dying.iter, cap.object = .endpoint id) → ∀ p ∈ v.queue id, g.Reaps p)
    (ids : List EndpointId) :
    ∃ queue state mail, Path g v { v with queue := queue, state := state, mail := mail } ∧
      Rep { s with
          procs := (ids.foldl (reapEndpoint dying) (s.procs, s.ipc)).1
          ipc := (ids.foldl (reapEndpoint dying) (s.procs, s.ipc)).2 } gone
        { v with queue := queue, state := state, mail := mail } ∧
      (∀ id', queue id' = v.queue id' ∨ queue id' = []) ∧
      (∀ id ∈ ids, Attended { v with queue := queue } id) ∧
      SameBoot s.procs (ids.foldl (reapEndpoint dying) (s.procs, s.ipc)).1 := by
  induction ids generalizing s v with
  | nil =>
    exact ⟨v.queue, v.state, v.mail, Relation.ReflTransGen.refl, hrep, fun _ => Or.inl rfl,
      fun id hid => (by cases hid), SameBoot.refl _⟩
  | cons id ids ih =>
    obtain ⟨queue₁, state₁, mail₁, hpath₁, hrep₁, hq₁, hatt₁, hboot₁⟩ :=
      reapEndpoint_path (g := g) hrep hbase hawake hcount id (hdied id)
    obtain ⟨queue₂, state₂, mail₂, hpath₂, hrep₂, hq₂, hatt₂, hboot₂⟩ := ih hrep₁
      (hpath₁.base hbase) hawake hcount (fun id' hnames p hp => by
        rcases hq₁ id' with hsame | hnil
        · exact hdied id' hnames p (hsame ▸ hp)
        · change p ∈ queue₁ id' at hp
          rw [hnil] at hp
          cases hp)
    refine ⟨queue₂, state₂, mail₂, hpath₁.trans hpath₂, hrep₂, fun id' => ?_, fun id' hid' => ?_,
      hboot₁.trans hboot₂⟩
    · rcases hq₂ id' with hsame | hnil
      · rw [hsame]
        exact hq₁ id'
      · exact Or.inr hnil
    · rcases List.mem_cons.mp hid' with rfl | hmem
      · intro hne hheld
        rcases hq₂ id' with hsame | hnil
        · exact hatt₁ (fun hnil => hne (hsame.trans hnil)) hheld
        · exact absurd hnil hne
      · exact hatt₂ id' hmem

/-! ### The drain -/

/-- A capability that the drain settles: it does not go home, and it is no reply capability. -/
def drained (dyingSlot : ProcSlot) (cap : Capability) : Bool :=
  (reclaimTarget cap dyingSlot).isNone && !isReply cap

/-- The drain passes over the other capabilities. -/
theorem drainCap_of_not_drained (s : Kernel) (h : drained dyingSlot cap = false) :
    s.drainCap cap = s := by
  unfold drainCap
  cases htarget : reclaimTarget cap dyingSlot with
  | some r =>
    obtain ⟨o, home⟩ := r
    obtain ⟨ho, hkind, -⟩ := reclaimTarget_some htarget
    rw [releaseAction_reclaimTo.mpr ⟨hkind, ho⟩]
  | none =>
    unfold drained at h
    rw [htarget, Option.isNone_none, Bool.true_and, Bool.not_eq_false'] at h
    rw [releaseAction_of_home (reclaimTarget_none htarget)]
    unfold isReply at h
    split at h
    · rename_i c hobj
      rw [hobj]
      rfl
    · cases h

/-- The drain of `teardown`. -/
theorem drainCaps_path (hrep : Rep s gone v) (hbase : v.Base) (htransit : v.transit = none)
    (hdoomed : v.doomed = true) (hheld : v.held.Perm (L.filter (drained dyingSlot))) :
    Drains g gone v [] (L.foldl drainCap s) := by
  induction L generalizing s v with
  | nil =>
    have hnil : v.held = [] := List.perm_nil.mp hheld
    have hsame : ({ v with held := [] } : Ledger) = v := by rw [← hnil]
    refine ⟨v.mem, v.rings, v.inUse, v.sendersWait, ?_, ?_⟩
    · change Path g v { v with held := [] }
      rw [hsame]
    · change Rep s gone { v with held := [] }
      rw [hsame]
      exact hrep
  | cons cap L ih =>
    rw [List.foldl_cons]
    by_cases hdr : drained dyingSlot cap = true
    · rw [List.filter_cons_of_pos hdr] at hheld
      unfold drained at hdr
      rw [Bool.and_eq_true, Option.isNone_iff_eq_none, Bool.not_eq_true'] at hdr
      have horder : Path g v { v with held := cap :: L.filter (drained dyingSlot) } :=
        Relation.ReflTransGen.single (Act.table (TableAct.reorder hheld.symm))
      obtain ⟨mem, rings, inUse, side, hpath, hrep'⟩ := drainCap_path (g := g)
        (hrep.reorder hheld.symm) (horder.base hbase) htransit rfl (reclaimTarget_none hdr.1)
        (by
          intro c hobj
          unfold isReply at hdr
          rw [hobj] at hdr
          exact Bool.noConfusion hdr.2) fun _ _ => hdoomed
      have hpath' : Path g v _ := horder.trans hpath
      obtain ⟨mem', rings', inUse', side', hrest, hrep''⟩ := ih hrep' (hpath'.base hbase) htransit
        hdoomed (List.Perm.refl _)
      exact ⟨mem', rings', inUse', side', hpath'.trans hrest, hrep''⟩
    · rw [List.filter_cons_of_neg hdr] at hheld
      rw [Bool.not_eq_true] at hdr
      rw [drainCap_of_not_drained s hdr]
      exact ih hrep hbase htransit hdoomed hheld

/-- The teardown of a process that has left: its capabilities are drained, and its frames and
its address space go back to the allocator. -/
theorem teardown_path (hrep : Rep s gone v) (hbase : v.Base) (htransit : v.transit = none)
    (hdoomed : v.doomed = true)
    (hheld : v.held.Perm (proc.caps.iter.filter (drained dyingSlot)))
    {boot : List (Nat × Nat)} (hframes : v.frames = boot.map Prod.snd)
    (hspaces : v.spaces = [proc.l4]) :
    ∃ mem rings inUse side, Path g v { v with
        held := [], mem := mem, rings := rings, inUse := inUse, sendersWait := side
        frames := [], spaces := [], doomed := false } ∧
      Rep { s.teardown proc boot with
          mem := (s.teardown proc boot).mem.destroyAddressSpace proc.l4 } gone
        { v with
          held := [], mem := mem, rings := rings, inUse := inUse, sendersWait := side
          frames := [], spaces := [], doomed := false } := by
  have hunmap : Path g v { v with
      mem := v.mem.unmapAll proc.l4 (proc.maps.filterMap fun e => e.map Prod.fst) } :=
    Relation.ReflTransGen.single (Act.mem (MemAct.unmap proc.l4 _))
  have hrep₁ : Rep { s with
        mem := s.mem.unmapAll proc.l4 (proc.maps.filterMap fun e => e.map Prod.fst) } gone
      { v with mem := v.mem.unmapAll proc.l4 (proc.maps.filterMap fun e => e.map Prod.fst) } :=
    ⟨hrep.procs, hrep.ipc, by dsimp only; rw [hrep.mem], hrep.rings, hrep.devs⟩
  obtain ⟨mem, rings, inUse, side, hdrain, hrep₂⟩ := drainCaps_path (g := g) hrep₁
    (hunmap.base hbase) htransit hdoomed hheld
  have hmem := hrep₂.mem
  dsimp only at hmem
  have hunload := unloadPages_path proc.l4 boot [] [proc.l4] mem
  rw [List.append_nil, ← hframes, ← hspaces] at hunload
  have hdestroy := destroyAddressSpace_path (unloadPages proc.l4 boot mem) proc.l4 [] []
  rw [← hspaces] at hdestroy
  have hboth : MemPath _ _ := hunload.trans hdestroy
  have hstore := hboth.path g (v := { v with
    held := [], mem := mem, rings := rings, inUse := inUse, sendersWait := side }) rfl
  have hcalm := hstore.tail (Act.calm rfl)
  refine ⟨_, rings, inUse, side, (hunmap.trans hdrain).trans hcalm, hrep₂.procs, hrep₂.ipc, ?_,
    hrep₂.rings, hrep₂.devs⟩
  dsimp only [Ledger.setStore]
  rw [hmem]
  rfl

/-! ### The whole exit -/

theorem reachWeight_of_not_drained (h : drained dyingSlot cap = false) (id : EndpointId)
    (right : Rights) : reachWeight id right cap = 0 := by
  refine Ipc.reachWeight_of_ne right fun heq => ?_
  unfold drained isReply reclaimTarget releaseAction at h
  rw [heq] at h
  simp [isReclaimableKind, CapObject.dropAction] at h

theorem listTotal_drained (id : EndpointId) (right : Rights) (L : List Capability) :
    listTotal (reachWeight id right) (L.filter (drained dyingSlot))
      = listTotal (reachWeight id right) L := by
  induction L with
  | nil => rfl
  | cons cap L ih =>
    by_cases hdr : drained dyingSlot cap = true
    · rw [List.filter_cons_of_pos hdr, listTotal_cons, listTotal_cons, ih]
    · rw [List.filter_cons_of_neg hdr, listTotal_cons, ih,
        reachWeight_of_not_drained (by rwa [Bool.not_eq_true] at hdr), Nat.zero_add]

theorem isNone_of_isReply (h : isReply cap = true) :
    (reclaimTarget cap dyingSlot).isNone = true := by
  rw [Option.isNone_iff_eq_none]
  by_contra hne
  obtain ⟨r, hr⟩ := Option.ne_none_iff_exists'.mp hne
  obtain ⟨o, home⟩ := r
  obtain ⟨-, hkind, -⟩ := reclaimTarget_some hr
  unfold isReply at h
  split at h
  · rename_i c hobj
    rw [hobj] at hkind
    cases hkind
  · cases h

end Kernel

namespace Rep

theorem dooms (hrep : Rep s gone v) : Rep s gone { v with doomed := true } :=
  ⟨hrep.procs, hrep.ipc, hrep.mem, hrep.rings, hrep.devs⟩

/-- The origins that name the process are cleared. -/
theorem clearOrigins (hrep : Rep s gone v) (p : ProcSlot) :
    Rep { s with procs := s.procs.clearOriginsNaming p } gone { v with
      proc := fun q => (v.proc q).map fun proc => proc.setCaps (proc.caps.clearOrigin p)
      dying := none } := by
  refine ⟨hrep.procs.clearOrigins p, hrep.ipc.same fun id right => ?_, hrep.mem, hrep.rings,
    hrep.devs⟩
  unfold peers
  rw [liveTotal_clearOrigins (reachWeight_steady id right)]

end Rep

namespace Kernel

/-- The process leaves: its capabilities are held, and its frames belong to nobody. -/
theorem Good.leaves (h : s.Good) (hc : s.procs.current core = some proc) :
    Rep { s with procs := s.procs.setCurrent core none } (some (s.procs.currentSlot core))
      { s.ledger with
        proc := Function.update s.ledger.proc (s.procs.currentSlot core) none
        held := proc.caps.iter, dying := some (s.procs.currentSlot core), spent := true
        state := Function.update s.ledger.state (s.procs.currentSlot core) .empty
        boot := Function.update s.ledger.boot (s.procs.currentSlot core) []
        mail := Function.update s.ledger.mail (s.procs.currentSlot core) Slot.empty.mail
        frames := (s.ledger.boot (s.procs.currentSlot core)).map Prod.snd ++ s.ledger.frames
        spaces := proc.l4 :: s.ledger.spaces } := by
  refine ⟨h.rep.procs.leave hc, h.rep.ipc.same fun id right => ?_, rfl, rfl, rfl⟩
  have hrem := liveTotal_remove (reachWeight id right) (h.proc_of_current hc)
  have hheld : s.ledger.held = [] := rfl
  unfold peers
  dsimp only
  rw [listTotal_iter, hheld, listTotal_nil]
  omega

/-- `reap_dying`. Afterwards the endpoint capabilities of the process do not count as peers. -/
theorem reapDying_path (hrep : Rep s gone v) (hbase : v.Base) (hawake : v.awake = [])
    {dying : CapTable} (hreply : ∀ cap ∈ dying.iter, ∀ c, cap.object = .reply c → g.Reaps c)
    (hdied : ∀ id, (∃ cap ∈ dying.iter, cap.object = .endpoint id) → ∀ p ∈ v.queue id, g.Reaps p)
    (hheld : v.held.Perm (dying.iter.filter fun cap => (reclaimTarget cap dyingSlot).isNone)) :
    ∃ queue state mail held, Path g v { v with
        queue := queue, state := state, mail := mail, held := held, doomed := true } ∧
      Rep (s.reapDying dying) gone { v with
        queue := queue, state := state, mail := mail, held := held, doomed := true } ∧
      held.Perm (dying.iter.filter (drained dyingSlot)) ∧
      SameBoot s.procs (s.reapDying dying).procs := by
  obtain ⟨state₁, mail₁, held₁, hpath₁, hrep₁, hperm₁, hboot₁⟩ := reapReplies_path (g := g)
    (L := dying.iter) (K := []) (fun cap hr => isNone_of_isReply hr) hrep hbase hawake hreply
    (by rw [List.append_nil]; exact hheld)
  rw [List.append_nil] at hperm₁
  have hcount : ∀ id right, dyingCount dying id right
      = listTotal (reachWeight id right) held₁ := by
    intro id right
    rw [dyingCount_eq, listTotal_perm _ hperm₁]
    exact (listTotal_drained id right dying.iter).symm
  obtain ⟨queue₂, state₂, mail₂, hpath₂, hrep₂, -, hatt₂, hboot₂⟩ := reapEndpoints_path (g := g)
    hrep₁ (hpath₁.base hbase) hawake hcount hdied (List.finRange maxEndpoints)
  exact ⟨queue₂, state₂, mail₂, held₁, (hpath₁.trans hpath₂).tail
    (Act.doom fun id => hatt₂ id (List.mem_finRange id)), hrep₂.dooms, hperm₁,
    hboot₁.trans hboot₂⟩

/-- What is left of an exit when the capabilities that go home have gone and the waiters are
woken. -/
theorem exit_tail (hrep : Rep s (some dyingSlot) v) (hbase : v.Base)
    (hdying : v.dying = some dyingSlot) (htransit : v.transit = none) (hdoomed : v.doomed = true)
    (hawake : v.awake = [])
    (hheld : v.held.Perm (proc.caps.iter.filter (drained dyingSlot)))
    {boot : List (Nat × Nat)} (hframes : v.frames = boot.map Prod.snd)
    (hspaces : v.spaces = [proc.l4]) :
    ∃ v', Path g v v' ∧ v'.Idle ∧
      Rep { ({ s with procs := s.procs.clearOriginsNaming dyingSlot } : Kernel).teardown proc boot
        with
        procs := (({ s with procs := s.procs.clearOriginsNaming dyingSlot } : Kernel).teardown
          proc boot).procs.setSlot dyingSlot Slot.empty
        ipc := (({ s with procs := s.procs.clearOriginsNaming dyingSlot } : Kernel).teardown
          proc boot).ipc.clearLink dyingSlot
        mem := (({ s with procs := s.procs.clearOriginsNaming dyingSlot } : Kernel).teardown
          proc boot).mem.destroyAddressSpace proc.l4 } none v' := by
  have hnone : v.proc dyingSlot = none := by
    rw [hrep.procs.proc_eq]
    exact (hrep.procs.gone dyingSlot rfl).1
  have hclear : Path g v _ := Relation.ReflTransGen.single
    (Act.table (TableAct.clearOrigins hdying hnone htransit))
  obtain ⟨mem, rings, inUse, side, hpath, hrep'⟩ := teardown_path (g := g)
    (hrep.clearOrigins dyingSlot) (hclear.base hbase) htransit hdoomed hheld hframes hspaces
  have hto : Path g v _ := hclear.trans hpath
  have hstate := (hrep'.procs.gone dyingSlot rfl).2.2.1
  have hfree := fun id => (hto.base hbase).registered.not_queued
    (Or.inl (by rw [hstate]; exact fun heq => by cases heq)) id
  exact ⟨_, hto, ⟨htransit, rfl, rfl, hawake, rfl, rfl, rfl⟩, hrep'.procs.vacate,
    hrep'.ipc.clearLink hfree, hrep'.mem, hrep'.rings, hrep'.devs⟩

theorem onExit_refines (h : s.Good) {s' : Kernel} (hexit : s.onExit core = some s')
    (hg : g.leave s.ledger (s.procs.currentSlot core))
    (hdied : ∀ p, s.concerns core p → g.Reaps p)
    (hstrand : s.exitStrands core = true → ∀ v cap, g.strand v cap) : s.Refines g s' := by
  unfold onExit at hexit
  split at hexit
  · cases hexit
  · rename_i proc hc
    simp only [Option.some.injEq] at hexit
    have hleave : Path g s.ledger _ := Relation.ReflTransGen.single (Act.leave (g := g)
      (h.proc_of_current hc) (by rw [h.state_of_current hc]; exact fun heq => by cases heq) rfl rfl
      rfl rfl hg)
    obtain ⟨P₁, held₁, hpath₁, hrep₁, hperm₁, hboot₁⟩ := reclaimLentCaps_path (g := g)
      (L := proc.caps.iter) (K := []) (h.leaves hc) (hleave.base h.base) rfl
      (by rw [List.append_nil])
      (fun hs : strandsCaps (s.procs.currentSlot core) _ proc.caps.iter = true => hstrand (by
        unfold exitStrands
        rw [hc]
        exact hs))
    rw [List.append_nil] at hperm₁
    have hto₁ : Path g s.ledger _ := hleave.trans hpath₁
    change Rep (({ s with procs := s.procs.setCurrent core none } : Kernel).reclaimLentCaps
      proc.caps (s.procs.currentSlot core)) _ _ at hrep₁
    change SameBoot _ (({ s with procs := s.procs.setCurrent core none } : Kernel).reclaimLentCaps
      proc.caps (s.procs.currentSlot core)).procs at hboot₁
    generalize ({ s with procs := s.procs.setCurrent core none } : Kernel).reclaimLentCaps
      proc.caps (s.procs.currentSlot core) = s₁ at hrep₁ hboot₁ hexit
    obtain ⟨queue₂, state₂, mail₂, held₂, hpath₂, hrep₂, hperm₂, hboot₂⟩ := reapDying_path (g := g)
      hrep₁ (hto₁.base h.base) rfl (fun cap hcap c hobj => hdied c (by
        obtain ⟨k, hk⟩ := CapTable.mem_iter.mp hcap
        exact ⟨proc, hc, Or.inl ⟨k, cap, hk, hobj⟩⟩))
      (fun id hnames p hp => hdied p (by
        obtain ⟨cap, hcap, hobj⟩ := hnames
        obtain ⟨k, hk⟩ := CapTable.mem_iter.mp hcap
        exact ⟨proc, hc, Or.inr ⟨id, hp, k, cap, hk, hobj⟩⟩)) hperm₁
    have hto₂ : Path g s.ledger _ := hto₁.trans hpath₂
    have hboot := (hboot₁.trans hboot₂) (s.procs.currentSlot core)
    generalize s₁.reapDying proc.caps = s₂ at hrep₂ hboot hexit
    have hframes₂ : (s.ledger.boot (s.procs.currentSlot core)).map Prod.snd ++ []
        = (s.ledger.boot (s.procs.currentSlot core)).map Prod.snd := List.append_nil _
    obtain ⟨v', hpath', hidle, hrep'⟩ := exit_tail (g := g) hrep₂ (hto₂.base h.base) rfl rfl rfl
      rfl hperm₂ hframes₂ rfl
    have hframes : ((s₂.procs.clearOriginsNaming (s.procs.currentSlot core)).table
        (s.procs.currentSlot core)).bootFrames = s.ledger.boot (s.procs.currentSlot core) := hboot
    rw [← hexit, hframes]
    exact ⟨v', hto₂.trans hpath', hrep', hidle⟩

end Kernel

end Plinth
