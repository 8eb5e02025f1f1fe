import Plinth.Proofs.Ram
import Plinth.Refine.Rings

/-!
# `Plinth.Runs.RingWork`: what the ring operations do to rings and memory

The ring code writes completions and header words to memory. `Works` says what a
sequence of ring operations may change. A ring keeps its owner, its frames and its size. Memory
changes in the frames of rings in use. A subscription is an old one, or it was armed through a
ring that is submitting.
-/

set_option autoImplicit false

namespace Plinth

/-! ### The work on rings -/

/-- The two rings differ in their indices and in their waiter at most. -/
structure Ring.Alike (r r' : Ring) : Prop where
  inUse : r'.inUse = r.inUse
  owner : r'.owner = r.owner
  sqPhys : r'.sqPhys = r.sqPhys
  cqPhys : r'.cqPhys = r.cqPhys
  mask : r'.mask = r.mask

theorem Ring.Alike.refl (r : Ring) : r.Alike r := ⟨rfl, rfl, rfl, rfl, rfl⟩

theorem Ring.Alike.trans {r r' r'' : Ring} (h : r.Alike r') (h' : r'.Alike r'') : r.Alike r'' :=
  ⟨h'.inUse.trans h.inUse, h'.owner.trans h.owner, h'.sqPhys.trans h.sqPhys,
    h'.cqPhys.trans h.cqPhys, h'.mask.trans h.mask⟩

/-- The address `a` lies in one of the two frames of the ring. -/
def Ring.Covers (r : Ring) (a : Nat) : Prop :=
  (r.sqPhys ≤ a ∧ a < r.sqPhys + frameSize) ∨ (r.cqPhys ≤ a ∧ a < r.cqPhys + frameSize)

theorem Ring.Covers.alike {r r' : Ring} {a : Nat} (h : r'.Covers a) (hr : r.Alike r') :
    r.Covers a := by
  unfold Covers at h ⊢
  rw [hr.sqPhys, hr.cqPhys] at h
  exact h

/-- Every ring in use has at most `maxEntries` entries. -/
def RingTable.Sized (rt : RingTable) : Prop :=
  ∀ id, (rt.rings id).inUse = true → (rt.rings id).mask.toNat < maxEntries

/-- The same stream of events: the same ring and the same cookie. -/
def Subscription.SameStream (sub sub' : Subscription) : Prop :=
  sub'.source = sub.source ∧ sub'.ring = sub.ring ∧ sub'.userData = sub.userData

/-- Ring operations took `(rt, ram)` to `(rt', ram')`. They posted to rings that satisfy `posts`,
and they armed subscriptions for rings that satisfy `arms`. -/
structure Works (posts arms : RingId → Prop) (rt : RingTable) (ram : Ram) (rt' : RingTable)
    (ram' : Ram) : Prop where
  alike : ∀ id, (rt.rings id).Alike (rt'.rings id)
  /-- A byte that changed lies in a frame of a ring in use. -/
  writes : rt.Sized → ∀ a, ram' a ≠ ram a →
    ∃ id, (rt.rings id).inUse = true ∧ (rt.rings id).Covers a
  tail : ∀ id, (rt'.rings id).cqTail ≠ (rt.rings id).cqTail →
    (rt.rings id).inUse = true ∧ posts id
  subs : ∀ sub', some sub' ∈ rt'.subs →
    (∃ sub, some sub ∈ rt.subs ∧ sub.SameStream sub') ∨ arms sub'.ring

variable {posts arms : RingId → Prop} {rt rt' rt'' : RingTable} {ram ram' ram'' : Ram}

theorem Works.refl (posts arms : RingId → Prop) (rt : RingTable) (ram : Ram) :
    Works posts arms rt ram rt ram where
  alike := fun _ => .refl _
  writes := fun _ _ h => absurd rfl h
  tail := fun _ h => absurd rfl h
  subs := fun sub h => Or.inl ⟨sub, h, rfl, rfl, rfl⟩

theorem Works.trans (h : Works posts arms rt ram rt' ram')
    (h' : Works posts arms rt' ram' rt'' ram'') : Works posts arms rt ram rt'' ram'' where
  alike := fun id => (h.alike id).trans (h'.alike id)
  writes := by
    intro hsized a hne
    have hsized' : rt'.Sized := fun id huse => by
      rw [(h.alike id).mask]
      exact hsized id ((h.alike id).inUse.symm.trans huse)
    by_cases hmid : ram' a = ram a
    · obtain ⟨id, huse, hcov⟩ := h'.writes hsized' a fun heq => hne (heq.trans hmid)
      exact ⟨id, (h.alike id).inUse.symm.trans huse, hcov.alike (h.alike id)⟩
    · exact h.writes hsized a hmid
  tail := by
    intro id hne
    by_cases hmid : (rt'.rings id).cqTail = (rt.rings id).cqTail
    · obtain ⟨huse, hpost⟩ := h'.tail id fun heq => hne (heq.trans hmid)
      exact ⟨(h.alike id).inUse.symm.trans huse, hpost⟩
    · exact h.tail id hmid
  subs := by
    intro sub hsub
    rcases h'.subs sub hsub with ⟨mid, hmid, hsrc, hring, hdata⟩ | harm
    · rcases h.subs mid hmid with ⟨old, hold, hsrc', hring', hdata'⟩ | harm
      · exact Or.inl ⟨old, hold, hsrc.trans hsrc', hring.trans hring', hdata.trans hdata'⟩
      · rw [hring]
        exact Or.inr harm
    · exact Or.inr harm

/-- The entry of a ring that an index selects lies in its frame. -/
theorem entry_in_frame {mask : UInt32} (index : UInt32) (h : mask.toNat < maxEntries) :
    ringHdrSize + (index &&& mask).toNat * cqEntrySize + cqEntrySize ≤ frameSize := by
  have hle : (index &&& mask).toNat ≤ mask.toNat := by
    rw [UInt32.toNat_and]
    exact Nat.and_le_right
  unfold maxEntries at h
  unfold ringHdrSize cqEntrySize frameSize
  omega

/-- A completion is written to the CQ of a ring in use. -/
theorem works_cqPost (id : RingId) (userData status : Nat) (dropIfFull : Bool) (hpost : posts id) :
    Works posts arms rt ram (rt.cqPost ram id userData status dropIfFull).2.1
      (rt.cqPost ram id userData status dropIfFull).2.2 := by
  unfold RingTable.cqPost
  dsimp only
  split
  · exact .refl ..
  · rename_i huse
    rw [Bool.not_eq_false] at huse
    split
    · exact .refl ..
    · refine ⟨fun j => ?_, fun hsized a hne => ?_, fun j hne => ?_,
        fun sub hsub => Or.inl ⟨sub, hsub, rfl, rfl, rfl⟩⟩
      · unfold RingTable.setRing
        dsimp only
        by_cases hj : j = id
        · subst hj
          rw [Function.update_self]
          exact ⟨rfl, rfl, rfl, rfl, rfl⟩
        · rw [Function.update_of_ne hj]
          exact .refl _
      · -- The four stores stay in the CQ frame.
        refine ⟨id, huse, Or.inr ?_⟩
        have hentry := entry_in_frame (rt.rings id).cqTail (hsized id huse)
        unfold ringHdrSize cqEntrySize frameSize at hentry
        by_contra hout
        refine hne ?_
        dsimp only
        unfold ringHdrSize cqEntrySize hdrTail
        unfold frameSize at hout
        rw [Ram.w32_of_outside _ _ _ (by omega), Ram.w32_of_outside _ _ _ (by omega),
          Ram.w32_of_outside _ _ _ (by omega), Ram.w64_of_outside _ _ _ (by omega)]
      · unfold RingTable.setRing at hne
        dsimp only at hne
        by_cases hj : j = id
        · rw [hj]
          exact ⟨huse, hpost⟩
        · rw [Function.update_of_ne hj] at hne
          exact absurd rfl hne

/-- The record at index `i` of the subscription table, if there is one. -/
theorem sub_mem {subs : List (Option Subscription)} {i : Nat} {sub : Subscription}
    (h : subs.getD i none = some sub) : some sub ∈ subs := by
  rw [List.getD_eq_getElem?_getD] at h
  cases hget : subs[i]? with
  | none =>
    rw [hget] at h
    cases h
  | some o =>
    rw [hget] at h
    have ho : o = some sub := h
    rw [← ho]
    exact List.mem_of_getElem? hget

/-- One step of an event delivery, if `posts` holds for the subscribers of the source. -/
theorem works_deliverOne {d : RingTable.Delivery} {source : Nat} {event : UInt32} (i : Nat)
    (hposts : ∀ sub, some sub ∈ d.1.subs → sub.source = source → posts sub.ring) :
    Works posts arms d.1 d.2.1 (RingTable.deliverOne source event d i).1
      (RingTable.deliverOne source event d i).2.1 := by
  unfold RingTable.deliverOne
  split
  · exact .refl ..
  · rename_i sub hsub
    have hmem := sub_mem hsub
    split
    · exact .refl ..
    · rename_i hsource
      rw [not_not] at hsource
      have hpost : Works posts arms d.1 d.2.1 _ _ := works_cqPost sub.ring sub.userData
        (if 0 < sub.dropped then event ||| eventDropped else event).toNat true
        (hposts sub hmem hsource)
      refine ⟨hpost.alike, hpost.writes, hpost.tail, fun sub' hsub' => ?_⟩
      rcases List.mem_or_eq_of_mem_set hsub' with hold | hnew
      · exact hpost.subs sub' hold
      · rw [Option.some.injEq] at hnew
        subst hnew
        exact Or.inl ⟨sub, hmem, rfl, rfl, rfl⟩

theorem works_deliver {d : RingTable.Delivery} {source : Nat} {event : UInt32}
    (indices : List Nat) (harms : ∀ id, ¬ arms id)
    (hposts : ∀ sub, some sub ∈ d.1.subs → sub.source = source → posts sub.ring) :
    Works posts arms d.1 d.2.1 (indices.foldl (RingTable.deliverOne source event) d).1
      (indices.foldl (RingTable.deliverOne source event) d).2.1 := by
  induction indices generalizing d with
  | nil => exact .refl ..
  | cons i indices ih =>
    have hone : Works posts arms d.1 d.2.1 (RingTable.deliverOne source event d i).1
        (RingTable.deliverOne source event d i).2.1 := works_deliverOne i hposts
    refine hone.trans (ih fun sub hsub hsource => ?_)
    rcases hone.subs sub hsub with ⟨old, hold, hsrc, hring, -⟩ | harm
    · rw [hring]
      exact hposts old hold (hsrc.symm.trans hsource)
    · exact absurd harm (harms _)

theorem works_deliverAll (source : Nat) (event : UInt32) (harms : ∀ id, ¬ arms id)
    (hposts : ∀ sub, some sub ∈ rt.subs → sub.source = source → posts sub.ring) :
    Works posts arms rt ram (rt.deliver ram source event).1
      (rt.deliver ram source event).2.1 := by
  unfold RingTable.deliver
  exact works_deliver (d := (rt, ram, [])) _ harms hposts

/-- The routing of completions, if `posts` holds for the rings that they go to. -/
theorem works_routeCompletions {d : RingTable.Delivery} (out : List (Completion × Nat))
    (hposts : ∀ c ∈ out, ∀ id userData, c.1 = .ring id userData → posts id) :
    Works posts arms d.1 d.2.1 (out.foldl Kernel.routeCompletion d).1
      (out.foldl Kernel.routeCompletion d).2.1 := by
  induction out generalizing d with
  | nil => exact .refl ..
  | cons c out ih =>
    have hrest := ih (d := Kernel.routeCompletion d c)
      fun c' hc' => hposts c' (List.mem_cons_of_mem _ hc')
    refine Works.trans ?_ hrest
    unfold Kernel.routeCompletion
    split
    · exact .refl ..
    · rename_i id userData heq
      exact works_cqPost id userData c.2 false
        (hposts c List.mem_cons_self id userData (by rw [heq]))

/-! ### The drain of a submission queue -/

namespace Kernel

variable {s t u : Kernel} {core : Core} {id : RingId}

/-- The work of one kernel state to another. -/
abbrev Work (posts arms : RingId → Prop) (s t : Kernel) : Prop :=
  Works posts arms s.rings s.ram t.rings t.ram

theorem work_postStatus (id : RingId) (userData status : Nat) (hpost : posts id) :
    Work posts arms s (s.postStatus id userData status) :=
  works_cqPost id userData status false hpost

theorem work_postBlock (caps : CapTable) (e : SqEntry) (rangeRight frameRight : Rights)
    (dir : Direction) (hpost : posts id) :
    Work posts arms s (s.postBlock caps id e rangeRight frameRight dir).2 := by
  unfold postBlock
  split
  · exact work_postStatus id _ _ hpost
  · split
    · exact work_postStatus id _ _ hpost
    · split
      · split
        · exact .refl ..
        · exact .refl ..
      · exact work_postStatus id _ _ hpost

theorem work_postEventSub (caps : CapTable) (e : SqEntry) (hpost : posts id) (harm : arms id) :
    Work posts arms s (s.postEventSub caps id e).2 := by
  unfold postEventSub
  split
  · exact work_postStatus id _ _ hpost
  · rename_i source _
    split
    · rename_i rings hsubscribe
      have hrings := subscribe_rings hsubscribe
      refine ⟨fun j => ?_, fun _ a h => absurd rfl h, fun j h => ?_, fun sub hsub => ?_⟩
      · dsimp only
        rw [hrings]
        exact .refl _
      · dsimp only at h
        rw [hrings] at h
        exact absurd rfl h
      · unfold RingTable.subscribe at hsubscribe
        split at hsubscribe
        · cases hsubscribe
        · split at hsubscribe
          · simp only [Option.some.injEq] at hsubscribe
            subst hsubscribe
            rcases List.mem_or_eq_of_mem_set hsub with hold | hnew
            · exact Or.inl ⟨sub, hold, rfl, rfl, rfl⟩
            · rw [Option.some.injEq] at hnew
              subst hnew
              exact Or.inr harm
          · cases hsubscribe
    · exact work_postStatus id _ _ hpost

theorem work_postCancel (e : SqEntry) : Work posts arms s (s.postCancel id e).2 := by
  unfold postCancel
  refine ⟨fun j => ?_, fun _ a h => absurd rfl h, fun j h => ?_, fun sub hsub => ?_⟩
  · dsimp only
    rw [cancel_rings]
    exact .refl _
  · dsimp only at h
    rw [cancel_rings] at h
    exact absurd rfl h
  · unfold RingTable.cancel at hsub
    split at hsub
    · rcases List.mem_or_eq_of_mem_set hsub with hold | hnew
      · exact Or.inl ⟨sub, hold, rfl, rfl, rfl⟩
      · cases hnew
    · exact Or.inl ⟨sub, hsub, rfl, rfl, rfl⟩

theorem work_postEntry (caps : CapTable) (e : SqEntry) (hpost : posts id) (harm : arms id) :
    Work posts arms s (s.postEntry caps id e).2 := by
  unfold postEntry
  split
  · exact work_postBlock caps e _ _ _ hpost
  · split
    · exact work_postBlock caps e _ _ _ hpost
    · split
      · exact work_postEventSub caps e hpost harm
      · split
        · exact work_postCancel e
        · exact work_postStatus id _ _ hpost

theorem work_submitLoop (caps : CapTable) (sqBase : Nat) (mask : UInt32) (hpost : posts id)
    (harm : arms id) (n : Nat) (head : UInt32) (consumed : Nat) :
    Work posts arms s (submitLoop caps id sqBase mask n head consumed s).2.2 := by
  induction n generalizing s head consumed with
  | zero => exact .refl ..
  | succ n ih =>
    have hentry := work_postEntry (s := s) caps (readSqEntry s.ram sqBase (head &&& mask).toNat)
      hpost harm
    unfold submitLoop
    split
    · rename_i s' heq
      rw [heq] at hentry
      exact hentry.trans (ih _ _)
    · rename_i s' heq
      rw [heq] at hentry
      exact hentry

theorem work_ringSubmit (slot : Nat)
    (hpost : ∀ id, s.ringIdFor core slot = some id → posts id ∧ arms id) :
    Work posts arms s (s.ringSubmit core slot).2 := by
  unfold ringSubmit
  split
  · rename_i proc id hc hid
    obtain ⟨hpost, harm⟩ := hpost id hid
    have huse := (ringIdFor_some hid).1
    have hloop := work_submitLoop (s := s) proc.caps (s.rings.rings id).sqPhys
      (s.rings.rings id).mask hpost harm
      (s.ram.r32 ((s.rings.rings id).sqPhys + hdrTail) - (s.rings.rings id).sqHead).toNat
      (s.rings.rings id).sqHead 0
    refine hloop.trans ⟨fun j => ?_, fun _ a hne => ?_, fun j hne => ?_,
      fun sub hsub => Or.inl ⟨sub, hsub, rfl, rfl, rfl⟩⟩
    · unfold RingTable.setRing
      dsimp only
      by_cases hj : j = id
      · subst hj
        rw [Function.update_self]
        exact ⟨rfl, rfl, rfl, rfl, rfl⟩
      · rw [Function.update_of_ne hj]
        exact .refl _
    · -- The mirror of the head is the first word of the SQ frame.
      refine ⟨id, (hloop.alike id).inUse.trans huse, Or.inl ?_⟩
      rw [(hloop.alike id).sqPhys]
      by_contra hout
      refine hne ?_
      dsimp only
      unfold hdrHead
      unfold frameSize at hout
      rw [Ram.w32_of_outside _ _ _ (by omega)]
    · unfold RingTable.setRing at hne
      dsimp only at hne
      by_cases hj : j = id
      · subst hj
        rw [Function.update_self] at hne
        exact absurd rfl hne
      · rw [Function.update_of_ne hj] at hne
        exact absurd rfl hne
  · exact .refl ..

theorem work_ringWait (slot : Nat) : Work posts arms s (s.ringWait core slot).2 := by
  unfold ringWait
  split
  · exact .refl ..
  · rename_i id hid
    dsimp only
    split
    · exact .refl ..
    · refine ⟨fun j => ?_, fun _ a h => absurd rfl h, fun j hne => ?_,
        fun sub hsub => Or.inl ⟨sub, hsub, rfl, rfl, rfl⟩⟩
      · unfold RingTable.setRing
        dsimp only
        by_cases hj : j = id
        · subst hj
          rw [Function.update_self]
          exact ⟨rfl, rfl, rfl, rfl, rfl⟩
        · rw [Function.update_of_ne hj]
          exact .refl _
      · unfold RingTable.setRing at hne
        dsimp only at hne
        by_cases hj : j = id
        · subst hj
          rw [Function.update_self] at hne
          exact absurd rfl hne
        · rw [Function.update_of_ne hj] at hne
          exact absurd rfl hne

theorem work_deliverEvent (source : Nat) (event : UInt32) (harms : ∀ id, ¬ arms id)
    (hposts : ∀ sub, some sub ∈ s.rings.subs → sub.source = source → posts sub.ring) :
    Work posts arms s (s.deliverEvent source event) := by
  have hwork : Works posts arms s.rings s.ram (s.rings.deliver s.ram source event).1
      (s.rings.deliver s.ram source event).2.1 := works_deliverAll source event harms hposts
  unfold Work deliverEvent
  dsimp only
  exact hwork

theorem work_completeIrq (dev : DevId) (used : List (Nat × UInt8))
    (hposts : ∀ d slot id userData, s.devs.devices dev = some d → d.bound = none →
      d.inflights.routing slot = some (.ring id userData) → posts id) :
    Work posts arms s (s.completeIrq dev used) := by
  unfold completeIrq
  split
  · exact .refl ..
  · rename_i d hd
    split
    · exact .refl ..
    · rename_i hbound
      refine works_routeCompletions (d := (s.rings, s.ram, [])) _ fun c hc id userData hring => ?_
      rcases drainCompletions_target used d.inflights [] c hc with hnil | ⟨slot, hslot⟩
      · cases hnil
      · exact hposts d slot id userData hd hbound (by rw [hslot, hring])

end Kernel

end Plinth
