import Plinth.Queues.Laps
import Plinth.Submit.Drain

/-!
# `Plinth.Submit.Bounded`: how many entries a doorbell takes

`ring_submit` goes from its own head to the tail word that the process stores, and it does not
compare their distance with the size of the ring. So a call takes no more entries than the ring has
in two cases only: the distance is at most the size, or a full pool stops the call in the first lap
(`submit_bounded_iff`). `lapTailRun` rings with a tail that is more than a lap ahead.
-/

set_option autoImplicit false

namespace Plinth

open Transition

/-- The ring has a size that `ring_register` accepts, and its two frames have no byte in
common. -/
structure Ring.Fit (r : Ring) : Prop where
  sized : Queues.Sized r.mask
  apart : Apart r.sqPhys r.cqPhys

theorem Ring.Fit.alike {r r' : Ring} (h : r.Fit) (hr : r.Alike r') : r'.Fit := by
  refine ⟨?_, ?_⟩
  · rw [hr.mask]
    exact h.sized
  · rw [hr.sqPhys, hr.cqPhys]
    exact h.apart

/-- The direction of a request. -/
def SqEntry.dir (e : SqEntry) : Option Direction :=
  if e.op = 0 then some .read else if e.op = 3 then some .write else none

/-- The entries from `head` on. -/
def queuedEntries (ram : Ram) (sqBase : Nat) (mask : UInt32) : Nat → UInt32 → List SqEntry
  | 0, _ => []
  | n + 1, head =>
    readSqEntry ram sqBase (head &&& mask).toNat :: queuedEntries ram sqBase mask n (head + 1)

namespace Kernel

variable {s t : Kernel} {core : Core} {id : RingId} {caps : CapTable} {e : SqEntry}

/-! ### Registered rings -/

/-- A frame that the process on a core names is at a page boundary. -/
theorem frame_aligned (hs : Reachable system always s) {proc : Process}
    (hc : s.procs.current core = some proc) {k : CapSlot} {cap : Capability} {a : Nat}
    (hk : proc.caps.slots k = some cap) (hobj : cap.object = .frame a) : a % frameSize = 0 := by
  have hlive : 0 < s.frameCaps a :=
    liveTotal_pos.mpr ⟨_, proc, k, cap, (good_of_reachable hs).proc_of_current hc, hk, by
      rw [← hobj, objWeight_self]
      exact Nat.one_pos⟩
  have hmarked := (frames_exclusive hs).marked a hlive
  unfold FrameAlloc.marked at hmarked
  split at hmarked
  · rename_i h
    exact h.1
  · cases hmarked

/-- Two different pages are apart. -/
theorem apart_of_aligned {a b : Nat} (ha : a % frameSize = 0) (hb : b % frameSize = 0)
    (hne : a ≠ b) : Apart a b := by
  unfold Apart
  unfold frameSize at ha hb ⊢
  omega

theorem sized_of_power {entries : Nat} (hne : entries ≠ 0) (hle : entries ≤ maxEntries)
    (hpow : entries.isPowerOfTwo) : Queues.Sized (UInt32.ofNat (entries - 1)) := by
  obtain ⟨k, rfl⟩ := hpow
  have hpow : 2 ^ k ≤ 2 ^ 6 := hle
  refine ⟨k, (Nat.pow_le_pow_iff_right (by omega)).mp hpow, ?_⟩
  have hone : 1 ≤ 2 ^ k := Nat.one_le_two_pow
  rw [UInt32.toNat_ofNat']
  omega

theorem ringRegister_fit (hs : Reachable system always s) (sqSlot cqSlot entries : Nat)
    (h : ((s.ringRegister core sqSlot cqSlot entries).2.rings.rings id).inUse = true) :
    (s.ringRegister core sqSlot cqSlot entries).2.rings.rings id = s.rings.rings id ∨
      ((s.ringRegister core sqSlot cqSlot entries).2.rings.rings id).Fit := by
  unfold ringRegister at h ⊢
  split
  · exact Or.inl rfl
  · rename_i hentries
    rw [if_neg hentries] at h
    rw [not_or, not_or, Decidable.not_not] at hentries
    split
    · exact Or.inl rfl
    · rename_i proc hc
      rw [hc] at h
      dsimp only at h
      split
      · rename_i sqPhys _ _ cqPhys _ _ hsq hcq
        rw [hsq, hcq] at h
        dsimp only at h
        split
        · exact Or.inl rfl
        · rename_i hne
          rw [if_neg hne] at h
          split
          · exact Or.inl rfl
          · rename_i new hfree
            rw [hfree] at h
            dsimp only at h
            obtain ⟨ksq, -, hksq, -⟩ := CapTable.lookup_ok hsq
            obtain ⟨kcq, -, hkcq, -⟩ := CapTable.lookup_ok hcq
            have hfit : Ring.Fit ⟨true, s.procs.currentSlot core, sqPhys, cqPhys,
                UInt32.ofNat (entries - 1), 0, 0, false⟩ :=
              ⟨sized_of_power hentries.1 (by omega) hentries.2.2,
                apart_of_aligned (frame_aligned hs hc hksq rfl) (frame_aligned hs hc hkcq rfl) hne⟩
            unfold RingTable.setRing at h ⊢
            dsimp only at h ⊢
            split
            · by_cases hid : id = new
              · subst hid
                dsimp only
                rw [Function.update_self]
                exact Or.inr hfit
              · dsimp only
                rw [Function.update_of_ne hid]
                exact Or.inl rfl
            · rename_i hmint
              rw [hmint] at h
              dsimp only at h
              by_cases hid : id = new
              · subst hid
                rw [Function.update_self] at h
                cases h
              · dsimp only
                rw [Function.update_of_ne hid, Function.update_of_ne hid]
                exact Or.inl rfl
      · exact Or.inl rfl

/-- In every state of a run, the rings in use are ones that `ring_register` makes. -/
theorem rings_fit (hs : Reachable system always s) :
    ∀ id, (s.rings.rings id).inUse = true → (s.rings.rings id).Fit := by
  refine hs.invariant (I := fun s => ∀ id, (s.rings.rings id).inUse = true →
    (s.rings.rings id).Fit) (fun s hinit id huse => ?_) fun s ℓ t hs ih _ hnext id huse => ?_
  · rw [(hinit.rings id).1] at huse
    cases huse
  · rcases step_rings hnext with hdrop | hwork | ⟨core, sqSlot, cqSlot, entries, rfl, -⟩ |
      ⟨ram, -, rfl⟩
    · rcases hdrop.rings id with heq | hempty
      · rw [heq] at huse ⊢
        exact ih id huse
      · rw [hempty] at huse
        cases huse
    · have halike := hwork.alike id
      exact (ih id (halike.inUse.symm.trans huse)).alike halike
    · obtain ⟨-, rfl⟩ := onCore_some hnext
      rcases ringRegister_fit hs sqSlot cqSlot entries huse with heq | hfit
      · rw [heq] at huse ⊢
        exact ih id huse
      · exact hfit
    · exact ih id huse

/-! ### What the loop leaves alone -/

/-- A status is stored to the CQ frame of the ring. -/
theorem postStatus_outside (hsize : (s.rings.rings id).mask.toNat < maxEntries)
    (userData status : Nat) {a : Nat} (h : a < (s.rings.rings id).cqPhys ∨
      (s.rings.rings id).cqPhys + frameSize ≤ a) :
    (s.postStatus id userData status).ram a = s.ram a := by
  show (s.rings.cqPost s.ram id userData status false).2.2 a = s.ram a
  have hentry := entry_in_frame (s.rings.rings id).cqTail hsize
  unfold ringHdrSize cqEntrySize frameSize at hentry
  unfold frameSize at h
  unfold RingTable.cqPost
  dsimp only
  split
  · rfl
  · split
    · rfl
    · dsimp only
      unfold ringHdrSize cqEntrySize hdrTail
      rw [Ram.w32_of_outside _ _ _ (by omega), Ram.w32_of_outside _ _ _ (by omega),
        Ram.w32_of_outside _ _ _ (by omega), Ram.w64_of_outside _ _ _ (by omega)]

/-- An entry changes memory in the CQ frame of its ring only. -/
theorem postEntry_outside (hsize : (s.rings.rings id).mask.toNat < maxEntries) (caps : CapTable)
    (e : SqEntry) {a : Nat} (h : a < (s.rings.rings id).cqPhys ∨
      (s.rings.rings id).cqPhys + frameSize ≤ a) :
    (s.postEntry caps id e).2.ram a = s.ram a := by
  have hblock : ∀ rangeRight frameRight dir,
      (s.postBlock caps id e rangeRight frameRight dir).2.ram a = s.ram a := by
    intro rangeRight frameRight dir
    unfold postBlock
    split
    · exact postStatus_outside hsize _ _ h
    · split
      · exact postStatus_outside hsize _ _ h
      · split
        · split <;> rfl
        · exact postStatus_outside hsize _ _ h
  unfold postEntry
  split
  · exact hblock ..
  · split
    · exact hblock ..
    · split
      · unfold postEventSub
        split
        · exact postStatus_outside hsize _ _ h
        · split
          · rfl
          · exact postStatus_outside hsize _ _ h
      · split
        · rfl
        · exact postStatus_outside hsize _ _ h

theorem readSqEntry_congr {ram ram' : Ram} {base i : Nat} (hi : i < maxEntries)
    (h : ∀ a, base ≤ a → a < base + frameSize → ram' a = ram a) :
    readSqEntry ram' base i = readSqEntry ram base i := by
  unfold maxEntries at hi
  unfold frameSize at h
  unfold readSqEntry ringHdrSize sqEntrySize
  dsimp only
  congr 1
  · exact Ram.r32_congr fun j hj => h _ (by omega) (by omega)
  · exact Ram.r32_congr fun j hj => h _ (by omega) (by omega)
  · exact Ram.r32_congr fun j hj => h _ (by omega) (by omega)
  · exact Ram.r32_congr fun j hj => h _ (by omega) (by omega)
  · exact Ram.r64_congr fun j hj => h _ (by omega) (by omega)
  · exact Ram.r64_congr fun j hj => h _ (by omega) (by omega)

theorem queuedEntries_congr {ram ram' : Ram} {base : Nat} {mask : UInt32}
    (hsize : mask.toNat < maxEntries) (h : ∀ a, base ≤ a → a < base + frameSize → ram' a = ram a)
    (n : Nat) (head : UInt32) :
    queuedEntries ram' base mask n head = queuedEntries ram base mask n head := by
  induction n generalizing head with
  | zero => rfl
  | succ n ih =>
    have hi : (head &&& mask).toNat < maxEntries := by
      rw [UInt32.toNat_and]
      exact Nat.lt_of_le_of_lt Nat.and_le_right hsize
    unfold queuedEntries
    rw [readSqEntry_congr hi h, ih]

/-! ### The pool -/

/-- The device that the entry asks for a request, if the process may send it. -/
def target (s : Kernel) (caps : CapTable) (e : SqEntry) : Option DevId :=
  match e.dir with
  | none => none
  | some dir =>
    if badCount e.count then none
    else
      match resolveRequest caps e dir.rangeRight dir.frameRight with
      | .error _ => none
      | .ok (dev, _, _) => if s.devs.ready dev then some dev else none

/-- The number of free slots in the pool of a device. -/
def room (s : Kernel) (dev : DevId) : Nat :=
  match s.devs.devices dev with
  | none => 0
  | some d => d.inflights.free.length

/-- The entries ask a device for more requests than its pool has room for. -/
def PoolStops (s : Kernel) (caps : CapTable) (es : List SqEntry) : Prop :=
  ∃ dev, s.room dev < es.countP fun e => s.target caps e == some dev

/-- The effect of an entry on the pools: it takes a slot of its device, or it is left in the queue
because there is none. -/
structure Drains (s : Kernel) (caps : CapTable) (e : SqEntry) (consumed : Bool) (t : Kernel) :
    Prop where
  ready : ∀ dev, t.devs.ready dev = s.devs.ready dev
  room : consumed = true → ∀ dev,
    s.room dev = t.room dev + if s.target caps e = some dev then 1 else 0
  full : consumed = false → ∃ dev, s.target caps e = some dev ∧ s.room dev = 0

theorem Drains.nothing (h : s.target caps e = none) (hdevs : t.devs = s.devs) :
    Drains s caps e true t := by
  refine ⟨fun dev => by rw [hdevs], fun _ dev => ?_, fun hno => nomatch hno⟩
  unfold Kernel.room
  rw [hdevs, h, if_neg (fun heq => nomatch heq)]
  rfl

theorem postBlock_drains (dir : Direction) (hdir : e.dir = some dir) :
    Drains s caps e (s.postBlock caps id e dir.rangeRight dir.frameRight dir).1
      (s.postBlock caps id e dir.rangeRight dir.frameRight dir).2 := by
  have htarget : s.target caps e = if badCount e.count then none else
      match resolveRequest caps e dir.rangeRight dir.frameRight with
      | .error _ => none
      | .ok (dev, _, _) => if s.devs.ready dev then some dev else none := by
    unfold target
    rw [hdir]
  unfold postBlock
  split
  · rename_i hcount
    rw [if_pos hcount] at htarget
    exact .nothing htarget rfl
  · rename_i hcount
    rw [if_neg hcount] at htarget
    split
    · rename_i hresolve
      rw [hresolve] at htarget
      exact .nothing htarget rfl
    · rename_i dev sector addr hresolve
      rw [hresolve] at htarget
      dsimp only at htarget
      split
      · rename_i hready
        rw [if_pos hready] at htarget
        obtain ⟨d, hd⟩ := Option.isSome_iff_exists.mp hready
        have hroom : s.room dev = d.inflights.free.length := by
          unfold Kernel.room
          rw [hd]
        have hdev : (s.devs.blockMapDma s.mem.fa addr).1.devices = s.devs.devices := by
          unfold Devices.blockMapDma
          split
          · rfl
          · split <;> rfl
        unfold Devices.ringPost
        rw [hd]
        dsimp only
        cases hfree : d.inflights.free with
        | nil =>
          have hsubmit : d.inflights.submit (.ring id e.userData) = none := by
            unfold Inflights.submit
            rw [hfree]
          rw [hsubmit]
          refine ⟨fun _ => rfl, fun hno => (nomatch hno), fun _ => ⟨dev, htarget, ?_⟩⟩
          rw [hroom, hfree]
          rfl
        | cons slot free =>
          have hsubmit : d.inflights.submit (.ring id e.userData) =
              some (slot * descPerReq, { d.inflights with
                free, routing := Function.update d.inflights.routing slot
                  (some (.ring id e.userData)) }) := by
            unfold Inflights.submit
            rw [hfree]
          rw [hsubmit]
          dsimp only
          have hsame : (if d.bound.isSome = true then (s.devs, s.mem.fa)
              else s.devs.blockMapDma s.mem.fa addr).1.devices = s.devs.devices := by
            split
            · rfl
            · exact hdev
          refine ⟨fun j => ?_, fun _ j => ?_, fun hno => nomatch hno⟩
          · unfold Devices.ready setFa Devices.setDevice
            dsimp only
            rw [hsame]
            by_cases hj : j = dev
            · subst hj
              rw [Function.update_self]
              exact hready.symm
            · rw [Function.update_of_ne hj]
          · show _ = Kernel.room _ j + _
            unfold Kernel.room setFa Devices.setDevice
            dsimp only
            rw [hsame, htarget]
            by_cases hj : j = dev
            · subst hj
              rw [Function.update_self, hd, if_pos rfl]
              dsimp only
              rw [hfree, List.length_cons]
            · rw [Function.update_of_ne hj, if_neg fun heq => hj (Option.some.inj heq).symm]
              rfl
      · rename_i hready
        rw [if_neg hready] at htarget
        exact .nothing htarget rfl

theorem postEntry_drains (s : Kernel) (caps : CapTable) (id : RingId) (e : SqEntry) :
    Drains s caps e (s.postEntry caps id e).1 (s.postEntry caps id e).2 := by
  unfold postEntry
  split
  · rename_i hop
    exact postBlock_drains .read (if_pos hop)
  · rename_i hread
    split
    · rename_i hop
      exact postBlock_drains .write ((if_neg hread).trans (if_pos hop))
    · rename_i hwrite
      have htarget : s.target caps e = none := by
        unfold target SqEntry.dir
        rw [if_neg hread, if_neg hwrite]
      split
      · unfold postEventSub
        split
        · exact .nothing htarget rfl
        · split
          · exact .nothing htarget rfl
          · exact .nothing htarget rfl
      · split
        · exact .nothing htarget rfl
        · exact .nothing htarget rfl

/-! ### The number of entries -/

/-- The loop takes at most `k` entries if the queue has no more of them, or if the pool stops the
loop among the first `k`. -/
theorem drainLoop_length_le (hfit : (s.rings.rings id).Fit) (caps : CapTable) (n : Nat)
    (head : UInt32) (k : Nat) :
    (drainLoop caps id (s.rings.rings id).sqPhys (s.rings.rings id).mask n head s).length ≤ k ↔
      n ≤ k ∨ s.PoolStops caps
        (queuedEntries s.ram (s.rings.rings id).sqPhys (s.rings.rings id).mask k head) := by
  induction k generalizing s head n with
  | zero =>
    cases n with
    | zero => exact ⟨fun _ => Or.inl (Nat.le_refl 0), fun _ => Nat.le_refl 0⟩
    | succ n =>
      refine ⟨fun h => ?_, fun h => ?_⟩
      · unfold drainLoop at h
        dsimp only at h
        split at h
        · cases h
        · cases h
      · rcases h with h | ⟨dev, h⟩
        · cases h
        · cases h
  | succ k ih =>
    cases n with
    | zero => exact ⟨fun _ => Or.inl (Nat.zero_le _), fun _ => Nat.zero_le _⟩
    | succ n =>
      have hdrains := postEntry_drains s caps id
        (readSqEntry s.ram (s.rings.rings id).sqPhys (head &&& (s.rings.rings id).mask).toNat)
      have halike := postEntry_alike (s := s) caps
        (readSqEntry s.ram (s.rings.rings id).sqPhys (head &&& (s.rings.rings id).mask).toNat) id id
      have hbytes : ∀ a, (s.rings.rings id).sqPhys ≤ a → a < (s.rings.rings id).sqPhys + frameSize →
          (s.postEntry caps id (readSqEntry s.ram (s.rings.rings id).sqPhys
            (head &&& (s.rings.rings id).mask).toNat)).2.ram a = s.ram a := by
        intro a hlow hhigh
        have hapart := hfit.apart
        unfold Apart at hapart
        exact postEntry_outside hfit.sized.lt caps _ (by omega)
      unfold drainLoop queuedEntries
      dsimp only
      split
      · rename_i s' heq
        rw [heq] at hdrains halike hbytes
        have ih' := ih (s := s') (hfit.alike halike) n (head + 1)
        rw [halike.sqPhys, halike.mask, queuedEntries_congr hfit.sized.lt hbytes] at ih'
        rw [List.length_cons, Nat.add_le_add_iff_right, ih', Nat.add_le_add_iff_right]
        -- A slot that the entry takes is counted on both sides.
        have htarget : ∀ e, s'.target caps e = s.target caps e := by
          intro e
          unfold target
          simp only [hdrains.ready]
        refine or_congr Iff.rfl (exists_congr fun dev => ?_)
        have hroom := hdrains.room rfl dev
        dsimp only at hroom
        rw [List.countP_cons]
        simp only [htarget, beq_iff_eq]
        omega
      · rename_i s' heq
        rw [heq] at hdrains
        obtain ⟨dev, htarget, hroom⟩ := hdrains.full rfl
        refine ⟨fun _ => Or.inr ⟨dev, ?_⟩, fun _ => ?_⟩
        · rw [List.countP_cons_of_pos (by rw [htarget]; exact beq_self_eq_true _), hroom]
          exact Nat.succ_pos _
        · exact Nat.succ_le_succ (Nat.zero_le k)

/-- The indices that the loop visits. -/
theorem drainLoop_indices (caps : CapTable) (id : RingId) (sqBase : Nat) (mask : UInt32) (n : Nat)
    (head : Nat) (s : Kernel) :
    (drainLoop caps id sqBase mask n (UInt32.ofNat head) s).map Drained.index =
      (List.range' head (drainLoop caps id sqBase mask n (UInt32.ofNat head) s).length).map
        fun j => (UInt32.ofNat j &&& mask).toNat := by
  induction n generalizing s head with
  | zero => rfl
  | succ n ih =>
    unfold drainLoop
    dsimp only
    split
    · rename_i s' heq
      have hnext : UInt32.ofNat head + 1 = UInt32.ofNat (head + 1) := (UInt32.ofNat_add head 1).symm
      rw [hnext, List.length_cons, List.range'_succ, List.map_cons, List.map_cons, ih]
    · rfl

/-- Within one lap the loop visits no index twice. -/
theorem drainLoop_nodup (caps : CapTable) (id : RingId) (sqBase : Nat) {mask : UInt32}
    (hsized : Queues.Sized mask) (n : Nat) (head : UInt32) (s : Kernel)
    (h : (drainLoop caps id sqBase mask n head s).length ≤ mask.toNat + 1) :
    ((drainLoop caps id sqBase mask n head s).map Drained.index).Nodup := by
  have hindices := drainLoop_indices caps id sqBase mask n head.toNat s
  rw [UInt32.ofNat_toNat] at hindices
  rw [hindices]
  refine List.pairwise_map.mpr ?_
  refine List.Pairwise.imp_of_mem (fun {i j} hi hj hlt => ?_) List.pairwise_lt_range'
  rw [List.mem_range'_1] at hi hj
  exact Queues.index_ne hsized hlt (by omega)

/-- The call takes at most one lap of entries, and no index twice. -/
def SubmitBounded (s : Kernel) (core : Core) (ringSlot : Nat) (mask : UInt32) : Prop :=
  (s.takenEntries core ringSlot).length ≤ mask.toNat + 1 ∧
    ((s.takenEntries core ringSlot).map Drained.index).Nodup

/-- A call is bounded if and only if the tail word is at most one lap ahead of the head of the
kernel, or the entries of the first lap ask a device for more requests than its pool has room for.
Every ring in use fits (`rings_fit`). -/
theorem submit_bounded_iff {proc : Process} {ringSlot : Nat}
    (hc : s.procs.current core = some proc) (hid : s.ringIdFor core ringSlot = some id)
    (hfit : (s.rings.rings id).Fit) :
    s.SubmitBounded core ringSlot (s.rings.rings id).mask ↔
      (s.ram.r32 ((s.rings.rings id).sqPhys + hdrTail) - (s.rings.rings id).sqHead).toNat ≤
          (s.rings.rings id).mask.toNat + 1 ∨
        s.PoolStops proc.caps (queuedEntries s.ram (s.rings.rings id).sqPhys
          (s.rings.rings id).mask ((s.rings.rings id).mask.toNat + 1)
          (s.rings.rings id).sqHead) := by
  have hsubmitted : s.takenEntries core ringSlot =
      drainLoop proc.caps id (s.rings.rings id).sqPhys (s.rings.rings id).mask
        (s.ram.r32 ((s.rings.rings id).sqPhys + hdrTail) - (s.rings.rings id).sqHead).toNat
        (s.rings.rings id).sqHead s := by
    unfold takenEntries
    rw [hc, hid]
  unfold SubmitBounded
  rw [hsubmitted, ← drainLoop_length_le hfit]
  exact ⟨fun h => h.1, fun h => ⟨h, drainLoop_nodup _ _ _ hfit.sized _ _ _ h⟩⟩

/-- A process registers a ring with one entry, and it stores the tail `tail`. -/
def storeTailRun (tail : UInt32) : List Label :=
  [.run 0 [some smallImage] [], .frameAlloc 0, .frameAlloc 0, .ringRegister 0 1 2 1,
    .memory (Ram.w32 (fun _ => 0) (74 * frameSize + hdrTail) tail)]

/-- The same entry is taken three times. -/
theorem submit_not_bounded : ∃ s, Reachable system always s ∧ s.ringIdFor 0 3 = some 0 ∧
    (s.rings.rings 0).mask = 0 ∧ ¬ s.SubmitBounded 0 3 (s.rings.rings 0).mask ∧
    (s.takenEntries 0 3).map Drained.index = [0, 0, 0] ∧ (s.ringSubmit 0 3).1 = 3 := by
  refine ⟨_, reachable_small (storeTailRun 3), ?_⟩
  have hindices : ((smallMachine.runFrom (storeTailRun 3)).takenEntries 0 3).map Drained.index =
      [0, 0, 0] := by
    decide +kernel
  refine ⟨by decide +kernel, by decide +kernel, fun h => ?_, hindices, by decide +kernel⟩
  have hnodup := h.2
  rw [hindices] at hnodup
  exact absurd hnodup (by decide)

theorem submit_bounded_storeTail :
    (smallMachine.runFrom (storeTailRun 1)).SubmitBounded 0 3
      ((smallMachine.runFrom (storeTailRun 1)).rings.rings 0).mask := by
  have hid : (smallMachine.runFrom (storeTailRun 1)).ringIdFor 0 3 = some 0 := by decide +kernel
  obtain ⟨proc, hc⟩ : ∃ proc, (smallMachine.runFrom (storeTailRun 1)).procs.current 0 =
      some proc := Option.isSome_iff_exists.mp (by decide +kernel)
  exact (submit_bounded_iff hc hid (rings_fit (reachable_small _) 0 (by decide +kernel))).mpr
    (Or.inl (by decide +kernel))

end Kernel

end Plinth
