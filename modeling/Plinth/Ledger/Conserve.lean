import Plinth.Ledger.Origins

/-!
# `Plinth.Ledger.Conserve`: capabilities that cannot be made again

Only the boot code makes framebuffers, block ranges and event sources. `Act.lasts` says what an
action does to the number of such capabilities, if the guard lets no transfer lose one and no
homecoming strand one: nothing, or a release or an exit takes some. What is taken and still on loan
goes home, and only what its owner had outright is dropped.
-/

set_option autoImplicit false

namespace Plinth

/-- The capability names `o`, and its holder owns it outright. -/
def ownWeight (o : CapObject) (cap : Capability) : Nat :=
  if cap.object = o ∧ cap.origin = none then 1 else 0

theorem ownWeight_of_ne {o : CapObject} {cap : Capability} (h : cap.object ≠ o) :
    ownWeight o cap = 0 := if_neg fun hboth => h hboth.1

theorem ownWeight_of_lent {o : CapObject} {cap : Capability} {origin : Origin}
    (h : cap.origin = some origin) : ownWeight o cap = 0 := if_neg fun hboth => by
  rw [h] at hboth
  cases hboth.2

/-- The guard lets no transfer lose a capability, no homecoming strand one, and no new capability
name `o`. -/
structure Guard.Conserves (g : Guard) (o : CapObject) : Prop where
  give : ∀ v p k, ¬ g.give v p k .lost
  strand : ∀ v cap, ¬ g.strand v cap
  grant : ∀ cap, g.grant cap → cap.object ≠ o

/-- What an action does to the capabilities for `o`. -/
inductive Lasts (g : Guard) (o : CapObject) (v v' : Ledger) : Prop where
  /-- No process leaves. Capabilities go between the tables, and what is held and its owner had
  outright may be dropped. -/
  | keeps (hlive : ∀ p, v.proc p ≠ none → v'.proc p ≠ none)
      (hspent : v.spent = true → v'.spent = true)
      (htotal : v'.total (objWeight o) + listTotal (ownWeight o) v.held
        = v.total (objWeight o) + listTotal (ownWeight o) v'.held)
  /-- A release takes a capability out of its slot. -/
  | takes {p : ProcSlot} {k : CapSlot} {x : Process} {cap : Capability}
      (hlive : ∀ p, v.proc p ≠ none → v'.proc p ≠ none) (hx : v.proc p = some x)
      (hk : x.caps.slots k = some cap) (hg : g.take v p k) (hfirst : v.spent = false)
      (hspent : v'.spent = true) (htotal : v'.total (objWeight o) = v.total (objWeight o))
      (hheld : v'.held = cap :: v.held)
  /-- An exit takes the capabilities of a process. -/
  | leaves {p : ProcSlot} {x : Process} (hx : v.proc p = some x) (hg : g.leave v p)
      (hspent : v'.spent = true) (htotal : v'.total (objWeight o) = v.total (objWeight o))
      (hnone : v.held = []) (hheld : v'.held = x.caps.iter)

section

variable {g : Guard} {v v' : Ledger} {o : CapObject}

theorem TableAct.spent_mono {give : ProcSlot → CapSlot → Fate → Prop}
    {take : ProcSlot → CapSlot → Prop} {strand : Capability → Prop} {h h' : Holdings}
    (act : TableAct give take strand h h') (hspent : h.spent = true) : h'.spent = true := by
  cases act with
  | give hp hk hnone hdying hfirst hg => rfl
  | take hp hk hkind hnone hdying hfirst hg => rfl
  | _ => exact hspent

/-- What a plain capability weighs, its owner has outright. -/
theorem ownWeight_plain (ho : isReclaimableKind o = true) {cap : Capability}
    (hplain : cap.isPlain) : ownWeight o cap = objWeight o cap := by
  by_cases hobj : cap.object = o
  · rw [← hobj, objWeight_self]
    rw [← hobj] at ho
    exact if_pos ⟨rfl, hplain.1 ho⟩
  · rw [ownWeight_of_ne hobj, objWeight_of_ne hobj]

theorem objWeight_reclaimable (ho : isReclaimableKind o = true) : Steady (objWeight o) :=
  objWeight_steady fun budget heq => by
    rw [heq] at ho
    cases ho

/-- What a table action does to the capabilities for `o`. -/
theorem TableAct.balance {give : ProcSlot → CapSlot → Fate → Prop}
    {take : ProcSlot → CapSlot → Prop} {strand : Capability → Prop} {h h' : Holdings}
    (act : TableAct give take strand h h') (hs : h.Sound) (ho : isReclaimableKind o = true) :
    h'.total (objWeight o) + listTotal (ownWeight o) h.held
        = h.total (objWeight o) + listTotal (ownWeight o) h'.held ∨
      (∃ p k x cap, h.proc p = some x ∧ x.caps.slots k = some cap ∧ take p k ∧ h.spent = false ∧
        h'.spent = true ∧ h'.total (objWeight o) = h.total (objWeight o) ∧
          h'.held = cap :: h.held) ∨
      (∃ cap, strand cap) ∨ ∃ tr, h.transit = some tr ∧ tr.fate = .lost := by
  obtain ⟨gone, hgone, -, htotal⟩ := act.gone hs
  have heq := htotal _ (objWeight_reclaimable ho)
  cases hgone with
  | nothing hheld =>
    rw [listTotal_nil] at heq
    left
    rw [listTotal_perm (ownWeight o) hheld]
    omega
  | takes hp hk hfirst htake hspent hheld =>
    exact Or.inr (Or.inl ⟨_, _, _, _, hp, hk, htake, hfirst, hspent, heq, hheld⟩)
  | home horigin hheld =>
    rw [listTotal_nil] at heq
    left
    rw [hheld, listTotal_cons, ownWeight_of_lent horigin]
    omega
  | drop hplain hheld =>
    rw [listTotal_cons, listTotal_nil] at heq
    left
    rw [hheld, listTotal_cons, ownWeight_plain ho hplain]
    omega
  | strand hstrand => exact Or.inr (Or.inr (Or.inl ⟨_, hstrand⟩))
  | lost htr hfate => exact Or.inr (Or.inr (Or.inr ⟨_, htr, hfate⟩))

/-- The total of a weight does not change when a process leaves with what it holds. -/
theorem Departs.total {p : ProcSlot} {x : Process} (hgone : Departs g v v' p x)
    (hx : v.proc p = some x) (w : Capability → Nat) : v'.total w = v.total w := by
  have hremove := liveTotal_remove w hx
  unfold Holdings.total
  rw [hgone.held, hgone.first, hgone.vacant, hgone.transit, listTotal_iter, listTotal_nil]
  omega

/-- Over a guarded action, capabilities for `o` stay, or a release or an exit takes some. -/
theorem Act.lasts (act : Act g v v') (hs : v.toHoldings.Sound) (hg : g.Conserves o)
    (ho : isReclaimableKind o = true)
    (htransit : ∀ tr, v.transit = some tr → tr.fate ≠ .lost) : Lasts g o v v' := by
  by_cases hgone : ∃ p x, v.proc p = some x ∧ Departs g v v' p x
  · obtain ⟨p, x, hx, hgone⟩ := hgone
    exact .leaves hx hgone.leave hgone.spent (hgone.total hx _) hgone.first hgone.held
  have halive : ∀ p, v.proc p ≠ none → v'.proc p ≠ none := by
    intro p hp
    obtain ⟨x, hx⟩ := Option.ne_none_iff_exists'.mp hp
    rcases act.same_or_leaves hx with ⟨-, y, -, hy, -⟩ | hdep
    · rw [hy]
      exact Option.some_ne_none y
    · exact absurd ⟨p, x, hx, hdep⟩ hgone
  have hne : ∀ {o' : CapObject}, isReclaimableKind o' = false → o' ≠ o := by
    rintro o' hother rfl
    rw [ho] at hother
    cases hother
  have hsame : v'.held = v.held → (v.spent = true → v'.spent = true) →
      v'.total (objWeight o) = v.total (objWeight o) → Lasts g o v v' := by
    intro hheld hspent htotal
    refine .keeps halive hspent ?_
    rw [hheld, htotal]
  have hlive : v'.held = v.held → v'.transit = v.transit → (v.spent = true → v'.spent = true) →
      liveTotal (objWeight o) v'.proc = liveTotal (objWeight o) v.proc → Lasts g o v v' := by
    intro hheld htr hspent heq
    refine hsame hheld hspent ?_
    unfold Holdings.total
    rw [hheld, htr, heq]
  have hmint : ∀ {p : ProcSlot} {proc : Process} {t : CapTable} {k : CapSlot} {c : Capability},
      v.proc p = some proc → CapTable.Places proc.caps c k t → c.object ≠ o →
        liveTotal (objWeight o) (Function.update v.proc p (some (proc.setCaps t)))
          = liveTotal (objWeight o) v.proc := by
    intro p proc t k c hp hin hobj
    rw [liveTotal_places _ hp hin, objWeight_of_ne hobj, Nat.add_zero]
  have hdrop : ∀ {cap : Capability}, v.held = cap :: v'.held → cap.object ≠ o →
      v'.proc = v.proc → v'.transit = v.transit → v'.spent = v.spent → Lasts g o v v' := by
    intro cap hheld hobj hproc htr hspent
    refine .keeps halive (fun h => hspent.trans h) ?_
    unfold Holdings.total
    rw [hproc, htr, hheld, listTotal_cons, listTotal_cons, objWeight_of_ne hobj,
      ownWeight_of_ne hobj]
    omega
  have hput : ∀ {p : ProcSlot} {proc x : Process}, v.proc p = some proc → x.caps = proc.caps →
      liveTotal (objWeight o) (Function.update v.proc p (some x))
        = liveTotal (objWeight o) v.proc := by
    intro p proc x hp hcaps
    refine liveTotal_put_same hp ?_
    unfold procWeight
    rw [hcaps]
  have htake : ∀ {p : ProcSlot} {proc : Process} {k : CapSlot} {cap : Capability},
      v.proc p = some proc → proc.caps.slots k = some cap → cap.object ≠ o →
        liveTotal (objWeight o)
            (Function.update v.proc p (some (proc.setCaps (proc.caps.set k none))))
          = liveTotal (objWeight o) v.proc := by
    intro p proc k cap hp hk hobj
    refine liveTotal_put_same hp ?_
    have hrevoke := procWeight_revoke (objWeight o) hk
    rwa [objWeight_of_ne hobj, Nat.add_zero] at hrevoke
  cases act with
  | table act =>
    rcases act.balance hs ho with hkeeps |
      ⟨p, k, x, cap, hp, hk, htake', hfirst, hspent, heq, hheld⟩
      | ⟨cap, hstrand⟩ | ⟨tr, htr, hfate⟩
    · exact .keeps halive act.spent_mono hkeeps
    · exact .takes halive hp hk htake'.2 hfirst hspent heq hheld
    · exact absurd hstrand (hg.strand v cap)
    · exact absurd hfate (htransit tr htr)
  | grant hp hok hgr hgiver hbound hin =>
    exact hlive rfl rfl (fun h => h) (hmint hp (CapTable.install_ok hin).1 (hg.grant _ hgr))
  | mintFrame hp hframes hnone hin =>
    exact hlive rfl rfl (fun h => h) (hmint hp (CapTable.install_ok hin).1 (hne rfl))
  | mintRing hp hfree huse howner hwait hnone hsq hcq hmask hin hreg =>
    exact hlive rfl rfl (fun h => h) (hmint hp (CapTable.install_ok hin).1 (hne rfl))
  | parkCall hstate hpq hq hnone hin hpark =>
    exact hlive rfl rfl (fun h => h) (hmint hq (CapTable.reclaim_some hin).1 (hne rfl))
  | receiveCall hqueue hside hcall hq hnone hin hserve =>
    exact hlive rfl rfl (fun h => h) (hmint hq (CapTable.reclaim_some hin).1 (hne rfl))
  | mapFrame hp hk hobj hrec =>
    exact hlive rfl rfl (fun h => h) (hput hp rfl)
  | mapFb hp hk hobj hslot hrec htables hleaves =>
    exact hlive rfl rfl (fun h => h) (hput hp rfl)
  | takeEndpoint hp hk hobj hstate hnone hfirst htk hn =>
    exact hlive rfl rfl (fun _ => rfl) (htake hp hk (by rw [hobj]; exact hne rfl))
  | takeBound hp hk hobj hstate hnone hfirst htk =>
    exact hlive rfl rfl (fun _ => rfl) (htake hp hk (by rw [hobj]; exact hne rfl))
  | dropEndpoint hheld hobj hdoomed hn =>
    exact hdrop hheld (by rw [hobj]; exact hne rfl) rfl rfl rfl
  | dropRing hheld hobj => exact hdrop hheld (by rw [hobj]; exact hne rfl) rfl rfl rfl
  | dropFrame hheld hobj => exact hdrop hheld (by rw [hobj]; exact hne rfl) rfl rfl rfl
  | dropReply hheld hobj => exact hdrop hheld (by rw [hobj]; exact hne rfl) rfl rfl rfl
  | @leave p proc hp hstate hheld hdying htr hcalm hleave =>
    exact absurd ⟨p, proc, hp, hleave, hheld, rfl, rfl, rfl, rfl⟩ hgone
  | @enter p proc boot rest spaces k budget rights hp hstate hcaps hspaces hframes hdying =>
    refine hlive rfl rfl (fun h => h) ?_
    have hzero : procWeight (objWeight o) proc = 0 := by
      unfold procWeight
      rw [hcaps]
      have hset := Tally.tally_insert (objWeight o) (T := CapTable.new.slots) (i := k)
        ⟨.cpuTime budget, rights, none⟩ rfl
      have hnew : Tally.tally (objWeight o) CapTable.new.slots = 0 := Tally.tally_none _
      rw [objWeight_of_ne (hne rfl), hnew] at hset
      exact hset
    have hadd := liveTotal_add (objWeight o) hp proc
    rw [hzero, Nat.add_zero] at hadd
    exact hadd
  | _ => exact hsame rfl (fun h => h) rfl

end

end Plinth
