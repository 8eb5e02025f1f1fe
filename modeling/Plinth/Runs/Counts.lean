import Plinth.Runs.Boot

/-!
# `Plinth.Runs.Counts`: the reference counts of the endpoints

The counts of an endpoint are exact in every state of a run (`counts_exact`). An endpoint that
is named by a capability stays in use exactly as long as some capability names it.

For the second part, `Naming` is what holds during an entry: an endpoint that was named when
the entry began is in use only while a capability names it. The entry creates endpoints before
it takes anything away, so a freed endpoint is not taken into use again in the same entry.
-/

set_option autoImplicit false

namespace Plinth

open Transition

variable {g : Guard} {v v' : Ledger} {s s' : Kernel} {id : EndpointId} {ℓ : Label}

/-- An endpoint that was named when the entry began is in use only while it is named. -/
structure Naming (id : EndpointId) (v : Ledger) : Prop where
  named : v.inUse id = true → 0 < v.total (objWeight (.endpoint id))
  fresh : v.spent = false → v.inUse id = true
  held : v.held ≠ [] → v.spent = true

namespace Naming

/-- An action that neither frees an endpoint nor takes an endpoint capability away. -/
theorem keep (h : Naming id v) (huse : v'.inUse = v.inUse)
    (htotal : v.total (objWeight (.endpoint id)) ≤ v'.total (objWeight (.endpoint id)))
    (hspent : v'.spent = v.spent ∨ v'.spent = true) (hheld : v'.held ≠ [] → v'.spent = true) :
    Naming id v' := by
  refine ⟨fun hin => ?_, fun hfirst => ?_, hheld⟩
  · rw [huse] at hin
    exact lt_of_lt_of_le (h.named hin) htotal
  · rw [huse]
    rcases hspent with heq | heq
    · exact h.fresh (heq ▸ hfirst)
    · rw [heq] at hfirst
      cases hfirst

/-- An endpoint capability leaves for good. -/
theorem settle (h : Naming id v) {ep : EndpointId} {n : Nat} {x : Holdings}
    (hn : x.total (objWeight (.endpoint ep)) = n) (hspent : x.spent = true)
    (hother : ep ≠ id →
      v.total (objWeight (.endpoint id)) ≤ x.total (objWeight (.endpoint id))) :
    Naming id ({ v with toHoldings := x }.settle ep n) := by
  refine ⟨fun hin => ?_, fun hfirst => ?_, fun _ => hspent⟩
  · unfold Ledger.settle at hin ⊢
    dsimp only at hin ⊢
    by_cases hid : id = ep
    · subst hid
      rw [Function.update_self, Bool.and_eq_true, decide_eq_true_eq] at hin
      rw [hn]
      exact hin.2
    · rw [Function.update_of_ne hid] at hin
      exact lt_of_lt_of_le (h.named hin) (hother (Ne.symm hid))
  · have heq : x.spent = false := hfirst
    rw [hspent] at heq
    cases heq

end Naming

theorem TableAct.spent {give : ProcSlot → CapSlot → Fate → Prop}
    {take : ProcSlot → CapSlot → Prop} {strand : Capability → Prop} {h h' : Holdings}
    (act : TableAct give take strand h h') (hheld : h.held ≠ [] → h.spent = true) :
    (h'.spent = h.spent ∨ h'.spent = true) ∧ (h'.held ≠ [] → h'.spent = true) := by
  cases act with
  | give => exact ⟨Or.inr rfl, fun _ => rfl⟩
  | take => exact ⟨Or.inr rfl, fun _ => rfl⟩
  | home hcons => exact ⟨Or.inl rfl, fun _ => hheld (by rw [hcons]; exact List.cons_ne_nil _ _)⟩
  | strand hcons =>
    exact ⟨Or.inl rfl, fun _ => hheld (by rw [hcons]; exact List.cons_ne_nil _ _)⟩
  | drop hcons => exact ⟨Or.inl rfl, fun _ => hheld (by rw [hcons]; exact List.cons_ne_nil _ _)⟩
  | reorder hperm =>
    refine ⟨Or.inl rfl, fun hne => hheld fun hnil => hne ?_⟩
    rw [hnil] at hperm
    exact hperm.eq_nil
  | _ => exact ⟨Or.inl rfl, hheld⟩

/-- A capability enters the table of a process. -/
theorem total_places_le {proc : Process} {p : ProcSlot} {cap : Capability} {k : CapSlot}
    {t : CapTable} (w : Capability → Nat) (hp : v.proc p = some proc)
    (hin : CapTable.Places proc.caps cap k t) :
    v.total w ≤ Holdings.total w { v.toHoldings with
      proc := Function.update v.proc p (some (proc.setCaps t)) } := by
  have hput := liveTotal_places w hp hin
  simp only [Holdings.total, hput]
  omega

/-- Every action keeps the naming. -/
theorem Act.naming (act : Act g v v') (hs : v.toHoldings.Sound) (h : Naming id v) :
    Naming id v' := by
  have hcons : ∀ {cap : Capability} {rest : List Capability}, v.held = cap :: rest →
      v.spent = true := fun heq => h.held (by rw [heq]; exact List.cons_ne_nil _ _)
  cases act with
  | table act =>
    obtain ⟨hspent, hheld⟩ := act.spent h.held
    exact h.keep rfl (le_of_eq (act.total_tracked hs (o := .endpoint id) trivial).symm) hspent hheld
  | grant hp hok hg hgiver hbound hin =>
    exact h.keep rfl (total_places_le _ hp (CapTable.install_ok hin).1) (Or.inl rfl) h.held
  | mintFrame hp hframes hnone hin =>
    exact h.keep rfl (total_places_le _ hp (CapTable.install_ok hin).1) (Or.inl rfl) h.held
  | mintRing hp hfree huse howner hwait hnone hsq hcq hmask hin hg =>
    exact h.keep rfl (total_places_le _ hp (CapTable.install_ok hin).1) (Or.inl rfl) h.held
  | parkCall hstate hpq hq hnone hin hg =>
    exact h.keep rfl (total_places_le _ hq (CapTable.reclaim_some hin).1) (Or.inl rfl) h.held
  | receiveCall hqueue hside hcall hq hnone hin =>
    exact h.keep rfl (total_places_le _ hq (CapTable.reclaim_some hin).1) (Or.inl rfl) h.held
  | @mapFrame p proc k cap addr va flags maps hp hk hobj hrec =>
    have hput := liveTotal_put_same (w := objWeight (.endpoint id)) hp
      (x := { proc with maps }) rfl
    exact h.keep rfl (by simp only [Holdings.total, hput, le_refl]) (Or.inl rfl) h.held
  | @mapFb p proc k cap _ _ _ _ _ _ f fbMaps sp hp hk hobj hslot hrec htables hleaves =>
    have hput := liveTotal_put_same (w := objWeight (.endpoint id)) hp
      (x := { proc with fbMaps }) rfl
    exact h.keep rfl (by simp only [Holdings.total, hput, le_refl]) (Or.inl rfl) h.held
  | @create ep hfree hfirst =>
    have hin := h.fresh hfirst
    have hne : id ≠ ep := by
      rintro rfl
      rw [hfree] at hin
      cases hin
    refine ⟨fun huse => h.named ?_, fun _ => ?_, h.held⟩
    · exact hin
    · dsimp only
      rw [Function.update_of_ne hne]
      exact hin
  | @release ep hnone hqueue =>
    by_cases hid : id = ep
    · subst hid
      refine ⟨fun huse => ?_, fun hfirst => ?_, h.held⟩
      · dsimp only at huse
        rw [Function.update_self] at huse
        cases huse
      · have hpos := h.named (h.fresh hfirst)
        omega
    · refine ⟨fun huse => h.named ?_, fun hfirst => ?_, h.held⟩
      · dsimp only at huse
        rwa [Function.update_of_ne hid] at huse
      · dsimp only
        rw [Function.update_of_ne hid]
        exact h.fresh hfirst
  | @takeEndpoint p proc k cap ep n hp hk hobj hstate hnone hfirst hg hn =>
    have hput := fun o => liveTotal_put (objWeight o) hp (proc.setCaps (proc.caps.set k none))
    have hrev := fun o => procWeight_revoke (objWeight o) hk
    have hself : objWeight (.endpoint ep) cap = 1 := by rw [← hobj, objWeight_self]
    refine h.settle (x := { v.toHoldings with
      proc := Function.update v.proc p (some (proc.setCaps (proc.caps.set k none)))
      spent := true }) ?_ rfl fun hne => ?_
    · have hput := hput (.endpoint ep)
      have hrev := hrev (.endpoint ep)
      simp only [Holdings.total] at hn ⊢
      omega
    · have hput := hput (.endpoint id)
      have hrev := hrev (.endpoint id)
      rw [objWeight_of_ne (o := .endpoint id) (by rw [hobj]; simpa using hne)] at hrev
      simp only [Holdings.total]
      omega
  | @dropEndpoint cap rest ep n hheld hobj hdoomed hn =>
    have hself : objWeight (.endpoint ep) cap = 1 := by rw [← hobj, objWeight_self]
    refine h.settle (x := { v.toHoldings with held := rest }) ?_ (hcons hheld) fun hne => ?_
    · simp only [Holdings.total, hheld, listTotal_cons, hself] at hn ⊢
      omega
    · have hother : objWeight (.endpoint id) cap = 0 :=
        objWeight_of_ne (by rw [hobj]; simpa using hne)
      simp only [Holdings.total, hheld, listTotal_cons, hother]
      omega
  | dropRing hheld hobj =>
    refine h.keep rfl ?_ (Or.inl rfl) fun _ => hcons hheld
    simp only [Holdings.total, hheld, listTotal_cons,
      objWeight_of_ne (o := .endpoint id) (by rw [hobj]; exact fun heq => by cases heq)]
    omega
  | dropFrame hheld hobj =>
    refine h.keep rfl ?_ (Or.inl rfl) fun _ => hcons hheld
    simp only [Holdings.total, hheld, listTotal_cons,
      objWeight_of_ne (o := .endpoint id) (by rw [hobj]; exact fun heq => by cases heq)]
    omega
  | dropReply hheld hobj =>
    refine h.keep rfl ?_ (Or.inl rfl) fun _ => hcons hheld
    simp only [Holdings.total, hheld, listTotal_cons,
      objWeight_of_ne (o := .endpoint id) (by rw [hobj]; exact fun heq => by cases heq)]
    omega
  | @takeBound p proc k cap dev hp hk hobj hstate hnone hfirst hg =>
    refine h.keep rfl ?_ (Or.inr rfl) fun _ => rfl
    have hput := liveTotal_put (objWeight (.endpoint id)) hp
      (proc.setCaps (proc.caps.set k none))
    have hrev := procWeight_revoke (objWeight (.endpoint id)) hk
    rw [objWeight_of_ne (o := .endpoint id) (by rw [hobj]; exact fun heq => by cases heq)] at hrev
    simp only [Holdings.total]
    omega
  | leave hp hstate hheld hdying htransit hcalm hg =>
    refine h.keep rfl ?_ (Or.inr rfl) fun _ => rfl
    have hrem := liveTotal_remove (objWeight (.endpoint id)) hp
    simp only [Holdings.total, hheld, listTotal_iter, listTotal_nil]
    omega
  | @enter p proc boot rest spaces k budget rights hp hstate hcaps hspaces hframes hdying =>
    refine h.keep rfl ?_ (Or.inl rfl) h.held
    have hadd := liveTotal_add (objWeight (.endpoint id)) hp proc
    simp only [Holdings.total]
    omega
  | _ => exact ⟨h.named, h.fresh, h.held⟩

/-! ### The counts of every state of a run -/

namespace Kernel

/-- The reference counts of the endpoints are exact. -/
structure CountsExact (s : Kernel) : Prop where
  senders : ∀ id, (s.ipc.endpoints id).senders = s.reaching id rightSend
  receivers : ∀ id, (s.ipc.endpoints id).receivers = s.reaching id rightRecv
  /-- No count was decremented at zero. -/
  asserts : s.ipc.failedAsserts = 0
  /-- An endpoint that is not in use is named by no capability. -/
  unnamed : ∀ id, (s.ipc.endpoints id).inUse = false → s.named id = 0

theorem named_eq_total (s : Kernel) (id : EndpointId) :
    s.ledger.total (objWeight (.endpoint id)) = s.named id := rfl

theorem Good.countsExact (h : s.Good) : s.CountsExact where
  senders := h.rep.ipc.senders
  receivers := h.rep.ipc.receivers
  asserts := h.rep.ipc.asserts
  unnamed := fun _ hfree => h.base.unnamed hfree

/-- An endpoint that is named before an entry is in use after it exactly if it is named then. -/
theorem Good.freed_iff (h : s.Good) (hnext : s.step ℓ = some s') (hnamed : 0 < s.named id) :
    (s'.ipc.endpoints id).inUse = true ↔ 0 < s'.named id := by
  obtain ⟨hgood, spent, path⟩ := (step_refines h hnext (s.permits_any ℓ)).good h
  have huse : s.ledger.inUse id = true := by
    by_contra hno
    rw [Bool.not_eq_true] at hno
    have hzero := h.base.unnamed hno
    rw [named_eq_total] at hzero
    omega
  have hstart : Naming id s.ledger := ⟨fun _ => hnamed, fun _ => huse, fun hne => absurd rfl hne⟩
  have hend := path.keeps (fun v v' act hbase hn => act.naming hbase.sound hn) h.base hstart
  constructor
  · exact hend.named
  · intro hpos
    by_contra hno
    rw [Bool.not_eq_true] at hno
    have hzero := hgood.base.unnamed hno
    rw [named_eq_total] at hzero
    omega

end Kernel

/-- The label is a spawn. -/
def Label.isSpawn : Label → Bool
  | .spawn .. => true
  | .spawnFromBuffer .. => true
  | _ => false

namespace Kernel

/-- The result endpoint of a spawn is in use after it exactly if the child or the caller names
it: a spawn that fails frees it. -/
theorem Good.settled (h : s.Good) (hspawn : ℓ.isSpawn = true) (hnext : s.step ℓ = some s') :
    s.Settled s' := by
  cases ℓ with
  | spawn core binary slot =>
    obtain ⟨⟨proc, hc⟩, rfl⟩ := onCore_some hnext
    exact (sysSpawn_spawns h hc binary slot (s.permits_any _)).2
  | spawnFromBuffer core bufVa len image slot =>
    obtain ⟨⟨proc, hc⟩, rfl⟩ := onCore_some hnext
    exact (sysSpawnFromBuffer_spawns h hc bufVa len image slot (s.permits_any _)).2
  | _ => cases hspawn

/-- In every state of a run the counts of the endpoints are exact. An endpoint that is named, or
that a spawn takes into use, is in use after the next entry exactly if some capability names it
then. -/
theorem endpoint_counts (hs : Reachable system always s) :
    s.CountsExact ∧ ∀ ℓ s', s.step ℓ = some s' → ∀ id,
      (0 < s.named id ∨ ℓ.isSpawn = true ∧ (s.ipc.endpoints id).inUse = false) →
        ((s'.ipc.endpoints id).inUse = true ↔ 0 < s'.named id) := by
  have hgood := good_of_reachable hs
  refine ⟨hgood.countsExact, fun ℓ s' hnext id hid => ?_⟩
  rcases hid with hnamed | ⟨hspawn, hfree⟩
  · exact hgood.freed_iff hnext hnamed
  · have hgood' := ((step_refines hgood hnext (s.permits_any ℓ)).good hgood).1
    refine ⟨hgood.settled hspawn hnext id hfree, fun hpos => ?_⟩
    by_contra hno
    rw [Bool.not_eq_true] at hno
    have hzero := hgood'.countsExact.unnamed id hno
    omega

/-- A parent with an endpoint spawns a child and receives its result. -/
def spawnRun : List Label :=
  [.run 0 [some smallImage] [], .spawn 0 (some (some smallImage)) errCode]

theorem endpoint_counts_spawnRun :
    ∃ s', (smallMachine.runFrom spawnRun).step (.recv 0 1) = some s' ∧
    ((s'.ipc.endpoints 0).inUse = true ↔ 0 < s'.named 0) := by
  refine ⟨_, rfl, (endpoint_counts (reachable_small spawnRun)).2 (.recv 0 1) _ rfl 0 (Or.inl ?_)⟩
  decide +kernel

end Kernel

end Plinth
