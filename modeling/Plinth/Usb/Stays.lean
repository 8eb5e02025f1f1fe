import Plinth.Usb.Bringup

/-!
# `Plinth.Usb.Stays`: the bring-up stays in its memory

The driver writes and hands out nothing but frames that it allocated if the controller and the
device are modest (`stays_of_modest`). The proof follows the procedures of the driver: `Inv` says
that the trace is fine and that what the driver knows lies in its frames, and each procedure keeps
it.

A device or a controller that is not modest makes the driver leave its frames in some world. That is
the other half of `bringUp_stays`.
-/

set_option autoImplicit false

namespace Plinth

open Procedure

namespace Usb

/-! ### Accesses in a frame -/

variable {n : Nat} {frames known : List UInt64} {f : UInt64}

theorem fine_write (hf : f ∈ known) {o len : Nat} (h : o + len ≤ frameBytes) :
    (Access.write (f.toNat + o) len).Fine known n :=
  ⟨f, hf, Nat.le_add_right _ _, by omega⟩

theorem fine_hand (hf : f ∈ known) {o len : Nat} (h : o + len ≤ frameBytes) :
    (Access.hand (f.toNat + o) len).Fine known n :=
  ⟨f, hf, Nat.le_add_right _ _, by omega⟩

theorem Access.Fine.mono {a : Access} (h : a.Fine known n) (hsub : ∀ f ∈ known, f ∈ frames) :
    a.Fine frames n := by
  cases a with
  | write addr len =>
    obtain ⟨f, hf, hin⟩ := h
    exact ⟨f, hsub f hf, hin⟩
  | hand addr len =>
    obtain ⟨f, hf, hin⟩ := h
    exact ⟨f, hsub f hf, hin⟩
  | read off => exact h

/-! ### The invariant -/

/-- A ring that fills its frame. -/
structure Ring.Sound (frames : List UInt64) (r : Ring) : Prop where
  cap : r.ring.cap = trbsPerFrame
  enqueue : r.ring.enqueue + 1 < trbsPerFrame
  frame : r.frame ∈ frames

/-- A device whose rings and buffers are frames of the driver. -/
structure Device.Sound (frames : List UInt64) (d : Device) : Prop where
  ep0 : d.ep0.Sound frames
  inputCtx : d.inputCtx ∈ frames
  intRing : ∀ r, d.intRing = some r → r.Sound frames
  reportBuf : d.reportBuf ≠ 0 → d.reportBuf ∈ frames
  epNum : d.intEpNum.toNat ≤ 15
  packet : d.intEpNum ≠ 0 → d.intEpMps.toNat ≤ frameBytes

/-- The trace is fine, and all that the driver holds lies in its frames. `ready` tells whether it
has the context array and the event ring, `known` are frames that it has at hand, and `K` is a fact
about the device. -/
structure Inv (n : Nat) (ready : Prop × Prop) (K : Device → Prop) (known : List UInt64)
    (s : Driver) :
    Prop where
  stays : s.Stays n
  known : ∀ f ∈ known, f ∈ s.frames
  array : ready.1 → s.dcbaa ∈ s.frames
  events : ready.2 → s.erseg ∈ s.frames
  cmd : ∀ r, s.cmd = some r → r.Sound s.frames
  dev : ∀ d, s.dev = some d → d.Sound s.frames ∧ K d

theorem Ring.Sound.mono {r : Ring} (h : r.Sound known) (hsub : ∀ f ∈ known, f ∈ frames) :
    r.Sound frames := ⟨h.cap, h.enqueue, hsub _ h.frame⟩

theorem Device.Sound.mono {d : Device} (h : d.Sound known) (hsub : ∀ f ∈ known, f ∈ frames) :
    d.Sound frames where
  ep0 := h.ep0.mono hsub
  inputCtx := hsub _ h.inputCtx
  intRing r hr := (h.intRing r hr).mono hsub
  reportBuf hne := hsub _ (h.reportBuf hne)
  epNum := h.epNum
  packet := h.packet

variable {w : World} {caps : Capabilities} {received : List UInt8} {ready : Prop × Prop}
  {K : Device → Prop} {s : Driver} {E : Driver → Prop}

/-! ### Primitives -/

/-- A procedure that keeps the invariant. If it gives up, then `E` holds. -/
abbrev Holds (E : Driver → Prop) (n : Nat) (ready : Prop × Prop) (K : Device → Prop)
    (known : List UInt64) {α : Type}
    (m : Proc Driver α) : Prop :=
  Triple (Inv n ready K known) m (fun _ => Inv n ready K known) E

theorem Inv.log (h : Inv n ready K known s) {as : List Access} (has : ∀ a ∈ as, a.Fine known n) :
    Inv n ready K known { s with trace := s.trace ++ as } where
  stays := by
    intro a ha
    rcases List.mem_append.mp ha with ha | ha
    · exact h.stays a ha
    · exact (has a ha).mono h.known
  known := h.known
  array := h.array
  events := h.events
  cmd := h.cmd
  dev := h.dev

theorem holds_log {as : List Access} (has : ∀ a ∈ as, a.Fine known n) :
    Holds E n ready K known (log as) :=
  Triple.act fun _ hs => hs.log has

theorem holds_ask {α : Type} {g : Driver → α} : Holds E n ready K known (ask g) :=
  Triple.ask fun _ hs => hs

theorem holds_pure {α : Type} {a : α} : Holds E n ready K known (pure a) :=
  Triple.pure fun _ hs => hs

theorem holds_orGiveUp (hE : ∀ s, Inv n ready K known s → E s) {α : Type} {o : Option α} :
    Holds E n ready K known (orGiveUp o) :=
  Triple.orGiveUp (fun _ _ _ hs => hs) fun s _ hs => hE s hs

theorem holds_require (hE : ∀ s, Inv n ready K known s → E s) {c : Prop} [Decidable c] :
    Holds E n ready K known (require c) :=
  Triple.require (fun _ _ hs => hs) fun s _ hs => hE s hs

theorem holds_wait : Holds (Driver.Stays n) n ready K known (waitUntil w) := by
  refine Triple.bind holds_ask fun k => ?_
  refine Triple.bind (Q := fun _ => Inv n ready K known) (Triple.act fun s hs => { hs with })
    fun _ => ?_
  exact holds_require fun _ hs => hs.stays

theorem triple_alloc : Triple (Inv n ready K known) (allocZeroed w)
    (fun f => Inv n ready K (f :: known)) (Driver.Stays n) := by
  refine Triple.bind holds_ask fun k => ?_
  refine Triple.bind (Q := fun _ => Inv n ready K known) (Triple.act fun s hs => { hs with })
    fun _ => ?_
  refine Triple.bind (holds_orGiveUp fun _ hs => hs.stays) fun phys => ?_
  have hown : ∀ s : Driver, ∀ f ∈ s.frames, f ∈ phys :: s.frames := fun _ _ hf =>
    List.mem_cons_of_mem _ hf
  refine Triple.bind (Q := fun _ => Inv n ready K (phys :: known)) (Triple.act fun s hs => ?_)
    fun _ => Triple.bind (holds_log ?_) fun _ => Triple.pure fun _ hs => hs
  · exact {
      stays := fun a ha => (hs.stays a ha).mono (hown s)
      known := by
        intro g hg
        rcases List.mem_cons.mp hg with rfl | hg
        · exact List.mem_cons_self
        · exact hown s g (hs.known g hg)
      array := fun hr => hown s _ (hs.array hr)
      events := fun hr => hown s _ (hs.events hr)
      cmd := fun r hr => (hs.cmd r hr).mono (hown s)
      dev := fun d hd => ⟨(hs.dev d hd).1.mono (hown s), (hs.dev d hd).2⟩ }
  · intro a ha
    rw [List.mem_singleton.mp ha]
    exact fine_write (o := 0) List.mem_cons_self (Nat.le_refl _)

/-- The event ring is a frame of the driver. -/
theorem holds_poll (hready : ready.2) {want : TrbType} :
    Holds E n ready K known (pollEvent w want) := by
  refine Triple.bind holds_ask fun k => ?_
  refine Triple.bind (Q := fun _ => Inv n ready K known) (Triple.act fun s hs => { hs with })
    fun _ => ?_
  refine Triple.bind (Q := fun erseg s => Inv n ready K known s ∧ erseg ∈ s.frames)
    (Triple.ask fun s hs => ⟨hs, hs.events hready⟩) fun erseg => ?_
  refine Triple.bind (Q := fun _ => Inv n ready K known) (Triple.act fun s hs => ?_) fun _ =>
    holds_pure
  obtain ⟨hs, herseg⟩ := hs
  have hknown : Inv n ready K [erseg] s :=
    { hs with known := fun f hf => by rw [List.mem_singleton.mp hf]; exact herseg }
  refine { hknown.log fun a ha => ?_ with known := hs.known }
  rw [List.mem_singleton.mp ha]
  have hslot := (w.dequeue k).isLt
  refine fine_hand List.mem_cons_self ?_
  unfold trbsPerFrame at hslot
  omega

/-! ### Rings -/

theorem touched_lt {r : Ring} (h : r.Sound known) {i : Nat} (hi : i ∈ r.ring.touched) :
    16 * i + 16 ≤ frameBytes := by
  have hcap := h.cap
  have henqueue := h.enqueue
  unfold ProducerRing.touched at hi
  unfold trbsPerFrame frameBytes at *
  split at hi
  · simp only [List.mem_cons, List.not_mem_nil, or_false] at hi
    omega
  · rw [List.mem_singleton] at hi
    omega

/-- A push keeps to the slots of the ring. -/
theorem Ring.Sound.push {r : Ring} (h : r.Sound known) (t : Trb) :
    Ring.Sound known ⟨r.frame, (r.ring.push (fun _ => Trb.zeroed) t).2.2⟩ := by
  have hcap := h.cap
  have henqueue := h.enqueue
  unfold ProducerRing.push
  dsimp only
  split
  · refine ⟨hcap, ?_, h.frame⟩
    show 0 + 1 < trbsPerFrame
    decide
  · rename_i hne
    refine ⟨hcap, ?_, h.frame⟩
    show r.ring.enqueue + 1 + 1 < trbsPerFrame
    rw [hcap] at hne
    omega

theorem triple_newRing (hf : f ∈ known) :
    Triple (Inv n ready K known) (newRing f)
      (fun r s => Inv n ready K known s ∧ r.Sound known) (Driver.Stays n) := by
  refine Triple.bind
    (Q := fun ring s => Inv n ready K known s ∧ ring.2 = ⟨trbsPerFrame, f, 0, true⟩)
    (Triple.orGiveUp (fun ring s hnew hs => ⟨hs, ?_⟩) fun _ _ hs => hs.stays)
    fun ring => Triple.given fun hring => ?_
  · rw [ProducerRing.new, if_pos (by decide)] at hnew
    cases hnew
    rfl
  refine Triple.bind (holds_log ?_) fun _ => Triple.bind (holds_log ?_) fun _ =>
    Triple.pure fun s hs => ⟨hs, by rw [hring], ?_, hf⟩
  · intro a ha
    obtain ⟨i, hi, rfl⟩ := List.mem_map.mp ha
    have hlt : i < trbsPerFrame := by
      rcases List.mem_append.mp hi with hi | hi
      · exact List.mem_range.mp hi
      · rw [List.mem_singleton.mp hi]
        decide
    unfold trbsPerFrame at hlt
    exact fine_write hf (by omega)
  · intro a ha
    rw [List.mem_singleton.mp ha]
    exact fine_hand (o := 0) hf (by decide)
  · rw [hring]
    show 0 + 1 < trbsPerFrame
    decide

theorem triple_pushRing {r : Ring} (hr : r.Sound known) {t : Trb}
    (ht : ∀ a ∈ t.buffers caps.contextBytes, a.Fine known n) :
    Triple (Inv n ready K known) (pushRing caps r t)
      (fun r s => Inv n ready K known s ∧ r.Sound known) E := by
  refine Triple.bind (holds_log ?_) fun _ => Triple.bind (holds_log ht) fun _ =>
    Triple.pure fun s hs => ⟨hs, hr.push t⟩
  intro a ha
  obtain ⟨i, hi, rfl⟩ := List.mem_map.mp ha
  exact fine_write hr.frame (touched_lt hr hi)

/-! ### What the driver holds -/

/-- Frames of the driver come to hand. -/
theorem Inv.learn (h : Inv n ready K known s) {more : List UInt64}
    (hmore : ∀ f ∈ more, f ∈ s.frames) :
    Inv n ready K (more ++ known) s :=
  { h with known := fun f hf => (List.mem_append.mp hf).elim (hmore f) (h.known f) }

theorem Inv.forget {more : List UInt64} (h : Inv n ready K (more ++ known) s) :
    Inv n ready K known s :=
  { h with known := fun f hf => h.known f (List.mem_append_right _ hf) }

theorem Inv.forgetHead (h : Inv n ready K (f :: known) s) : Inv n ready K known s :=
  { h with known := fun g hg => h.known g (List.mem_cons_of_mem f hg) }

/-- The frames of a device. -/
def Device.owned (d : Device) : List UInt64 :=
  [d.ep0.frame, d.inputCtx] ++ d.intRing.toList.map Ring.frame ++
    (if d.reportBuf = 0 then [] else [d.reportBuf])

theorem Device.Sound.own {d : Device} (h : d.Sound frames) :
    d.Sound d.owned ∧ ∀ f ∈ d.owned, f ∈ frames := by
  unfold Device.owned
  refine ⟨⟨⟨h.ep0.cap, h.ep0.enqueue, by simp⟩, by simp, fun r hr => ?_, fun hne => ?_, h.epNum,
    h.packet⟩, fun f hf => ?_⟩
  · exact ⟨(h.intRing r hr).cap, (h.intRing r hr).enqueue, by simp [hr]⟩
  · rw [if_neg hne]
    simp
  · rcases List.mem_append.mp hf with hf | hf
    · rcases List.mem_append.mp hf with hf | hf
      · simp only [List.mem_cons, List.not_mem_nil, or_false] at hf
        rcases hf with rfl | rfl
        · exact h.ep0.frame
        · exact h.inputCtx
      · obtain ⟨r, hr, rfl⟩ := List.mem_map.mp hf
        exact (h.intRing r (Option.mem_toList.mp hr)).frame
    · split at hf
      · cases hf
      · rename_i hne
        rw [List.mem_singleton.mp hf]
        exact h.reportBuf hne

/-- The device of the driver, with its frames at hand. -/
theorem triple_device_eq (hE : ∀ s, Inv n ready K known s → E s) :
    Triple (Inv n ready K known) device
      (fun d s => (Inv n ready K (d.owned ++ known) s ∧ s.dev = some d) ∧ d.Sound d.owned ∧ K d)
      E := by
  refine Triple.bind (Q := fun dev s => Inv n ready K known s ∧ dev = s.dev)
    (Triple.ask fun _ hs => ⟨hs, rfl⟩) fun dev => ?_
  refine Triple.orGiveUp (fun d s hd hs => ?_) fun s _ hs => hE s hs.1
  obtain ⟨hsound, hK⟩ := hs.1.dev d (by rw [← hs.2, hd])
  exact ⟨⟨hs.1.learn hsound.own.2, by rw [← hs.2, hd]⟩, hsound.own.1, hK⟩

theorem triple_device (hE : ∀ s, Inv n ready K known s → E s) :
    Triple (Inv n ready K known) device
      (fun d s => Inv n ready K (d.owned ++ known) s ∧ d.Sound d.owned ∧ K d)
      E :=
  (triple_device_eq hE).post fun _ _ hs => ⟨hs.1.1, hs.2⟩

/-- Change the device. -/
theorem triple_setDev {more : List UInt64} {d : Device} {L : Device → Prop}
    (hd : d.Sound (more ++ known)) (hL : L d) :
    Triple (Inv n ready K (more ++ known)) (act fun s => { s with dev := some d })
      (fun _ => Inv n ready L known) E :=
  Triple.act fun s hs => {
    stays := hs.stays
    known := hs.forget.known
    array := hs.array
    events := hs.events
    cmd := hs.cmd
    dev := fun d' hd' => by
      cases hd'
      exact ⟨hd.mono hs.known, hL⟩ }

theorem Trb.buffers_nil {t : Trb} {cs : Nat} (h : t.trbType ≠ TrbType.normal.code)
    (hdata : t.trbType ≠ TrbType.dataStage.code) (haddress : t.trbType ≠ TrbType.addressDevice.code)
    (hconfigure : t.trbType ≠ TrbType.configureEndpoint.code) : t.buffers cs = [] := by
  unfold Trb.buffers
  rw [if_neg (not_or.mpr ⟨h, hdata⟩), if_neg (not_or.mpr ⟨haddress, hconfigure⟩)]

/-- The buffer of a transfer. -/
theorem fine_transfer (hf : f ∈ known) {t : Trb} {cs : Nat} (hparam : t.param = f)
    (htype : t.trbType = TrbType.normal.code ∨ t.trbType = TrbType.dataStage.code)
    {len : UInt32} (hstatus : t.status = len &&& 0x1FFFF) (hlen : len.toNat ≤ frameBytes) :
    ∀ a ∈ t.buffers cs, a.Fine known n := by
  intro a ha
  unfold Trb.buffers at ha
  rw [if_pos htype] at ha
  rw [List.mem_singleton.mp ha, hparam, hstatus]
  refine fine_hand (o := 0) hf ?_
  rw [UInt32.toNat_and, UInt32.toNat_and, Nat.zero_add]
  exact Nat.le_trans (Nat.le_trans Nat.and_le_left Nat.and_le_left) hlen

/-- The input context of a command. -/
theorem fine_context (hf : f ∈ known) {t : Trb} (hparam : t.param = f)
    (htype : t.trbType = TrbType.addressDevice.code ∨ t.trbType = TrbType.configureEndpoint.code) :
    ∀ a ∈ t.buffers caps.contextBytes, a.Fine known n := by
  intro a ha
  unfold Trb.buffers at ha
  have hnot : ¬ (t.trbType = TrbType.normal.code ∨ t.trbType = TrbType.dataStage.code) := by
    rcases htype with htype | htype
    · rw [htype]
      decide
    · rw [htype]
      decide
  rw [if_neg hnot, if_pos htype] at ha
  rw [List.mem_singleton.mp ha, hparam]
  refine fine_hand (o := 0) hf ?_
  unfold Capabilities.contextBytes frameBytes
  split <;> omega

/-! ### The controller -/

theorem holds_pushCommand {t : Trb} (ht : ∀ a ∈ t.buffers caps.contextBytes, a.Fine known n) :
    Holds (Driver.Stays n) n ready K known (pushCommand caps t) := by
  refine Triple.bind (Q := fun cmd s => Inv n ready K known s ∧ cmd = s.cmd)
    (Triple.ask fun _ hs => ⟨hs, rfl⟩) fun cmd => ?_
  refine Triple.bind (Q := fun ring s => Inv n ready K ([ring.frame] ++ known) s ∧
      ring.Sound ([ring.frame] ++ known))
    (Triple.orGiveUp (fun ring s hring hs => ?_) fun _ _ hs => hs.1.stays)
    fun ring => Triple.given fun hring => ?_
  · have hsound := hs.1.cmd ring (by rw [← hs.2, hring])
    refine ⟨hs.1.learn fun f hf => ?_, hsound.cap, hsound.enqueue, List.mem_cons_self⟩
    rw [List.mem_singleton.mp hf]
    exact hsound.frame
  · refine Triple.bind (triple_pushRing hring fun a ha =>
      (ht a ha).mono fun f hf => List.mem_append_right _ hf) fun ring' => Triple.act fun s hs => ?_
    exact { hs.1.forget with
      cmd := fun r hr => by
        cases hr
        exact hs.2.mono hs.1.known }

theorem holds_scratchpads {dcbaa : UInt64} (hdcbaa : dcbaa ∈ known) (h : caps.scratch ≤ 512) :
    Holds (Driver.Stays n) n ready K known (scratchpads w caps dcbaa) := by
  refine Triple.ite (fun _ => ?_) fun _ => holds_pure
  refine Triple.bind triple_alloc fun arr => ?_
  refine Triple.bind (Q := fun _ => Inv n ready K (arr :: known)) (Triple.forAll fun i hi => ?_)
    fun _ => ?_
  · have hlt : i < caps.scratch := List.mem_range.mp hi
    refine Triple.bind triple_alloc fun buf => ?_
    refine Triple.post (Q := fun _ => Inv n ready K (buf :: arr :: known))
      (holds_log fun a ha => ?_) fun _ s hs => hs.forgetHead
    simp only [List.mem_cons, List.not_mem_nil, or_false] at ha
    rcases ha with rfl | rfl
    · exact fine_write (by simp) (by unfold frameBytes; omega)
    · exact fine_hand (o := 0) List.mem_cons_self (Nat.le_refl _)
  · refine Triple.post (Q := fun _ => Inv n ready K (arr :: known))
      (holds_log fun a ha => ?_) fun _ s hs => hs.forgetHead
    simp only [List.mem_cons, List.not_mem_nil, or_false] at ha
    rcases ha with rfl | rfl
    · exact fine_write (o := 0) (List.mem_cons_of_mem _ hdcbaa) (by decide)
    · exact fine_hand (o := 0) List.mem_cons_self (by unfold frameBytes; omega)

theorem holds_resetPorts (hready : ready.2) (ps : List Nat) :
    Holds E n ready K known (resetPorts w ps) := by
  induction ps with
  | nil => exact holds_pure
  | cons p ps ih =>
    refine Triple.ite (fun _ => Triple.bind (holds_poll hready) fun ev => ?_) fun _ => ih
    exact Triple.ite (fun _ => Triple.act fun s hs => { hs with }) fun _ => ih

theorem triple_programAndRun (h : caps.scratch ≤ 512) :
    Triple (Inv n (False, False) K []) (programAndRun w caps) (fun _ => Inv n (True, True) K [])
      (Driver.Stays n) := by
  have hslots := caps.maxSlots.toNat_lt
  refine Triple.bind triple_alloc fun dcbaa => ?_
  refine Triple.bind (holds_scratchpads List.mem_cons_self h) fun _ => ?_
  refine Triple.bind (holds_log fun a ha => ?_) fun _ => ?_
  · rw [List.mem_singleton.mp ha]
    exact fine_hand (o := 0) List.mem_cons_self (by unfold frameBytes; omega)
  refine Triple.bind (Q := fun _ => Inv n (True, False) K []) (Triple.act fun s hs => ?_) fun _ =>
    ?_
  · exact { hs.forgetHead with
      array := fun _ => hs.known dcbaa List.mem_cons_self
      events := fun h => h.elim }
  refine Triple.bind triple_alloc fun cr => ?_
  refine Triple.bind (triple_newRing List.mem_cons_self) fun ring => Triple.given fun hring => ?_
  refine Triple.bind (Q := fun _ => Inv n (True, False) K []) (Triple.act fun s hs => ?_) fun _ =>
    ?_
  · exact { hs.forgetHead with
      cmd := fun r hr => by
        cases hr
        exact hring.mono hs.known }
  refine Triple.bind triple_alloc fun erseg => ?_
  refine Triple.bind triple_alloc fun erst => ?_
  refine Triple.bind (holds_log fun a ha => ?_) fun _ => ?_
  · obtain ⟨i, hi, rfl⟩ := List.mem_map.mp ha
    have hlt := List.mem_range.mp hi
    exact fine_write List.mem_cons_self (by unfold frameBytes; omega)
  refine Triple.bind (holds_log fun a ha => ?_) fun _ => ?_
  · simp only [List.mem_cons, List.not_mem_nil, or_false] at ha
    rcases ha with rfl | rfl
    · exact fine_hand (o := 0) List.mem_cons_self (by decide)
    · exact fine_hand (o := 0) (List.mem_cons_of_mem _ List.mem_cons_self) (by decide)
  refine Triple.bind (Q := fun _ => Inv n (True, True) K []) (Triple.act fun s hs => ?_) fun _ => ?_
  · exact { hs.forgetHead.forgetHead with
      array := hs.array
      events := fun _ => hs.known erseg (List.mem_cons_of_mem _ List.mem_cons_self) }
  exact Triple.bind holds_wait fun _ => holds_resetPorts trivial _

theorem holds_awaitCommand (hready : ready.2) :
    Holds (Driver.Stays n) n ready K known (awaitCommand w) :=
  Triple.bind (holds_poll hready) fun _ =>
    Triple.bind (holds_orGiveUp fun _ hs => hs.stays) fun _ =>
      Triple.bind (holds_require fun _ hs => hs.stays) fun _ => holds_pure

theorem holds_enableSlot (hready : ready.2) :
    Holds (Driver.Stays n) n ready K known (enableSlot w caps) := by
  refine Triple.bind (holds_pushCommand fun a ha => ?_) fun _ =>
    Triple.bind (holds_awaitCommand hready) fun _ => holds_pure
  rw [Trb.buffers_nil (by decide +kernel) (by decide +kernel) (by decide +kernel)
    (by decide +kernel)] at ha
  cases ha

theorem holds_addressDevice (hready : ready.1 ∧ ready.2) {slot : UInt8} :
    Triple (Inv n ready (fun _ => True) []) (addressDevice w caps slot)
      (fun _ => Inv n ready (fun _ => True) []) (Driver.Stays n) := by
  have hcs : caps.contextBytes ≤ 64 := by
    unfold Capabilities.contextBytes
    split <;> omega
  have hslot := slot.toNat_lt
  unfold addressDevice
  refine Triple.bind holds_ask fun port => ?_
  refine Triple.bind triple_alloc fun devCtx => ?_
  refine Triple.bind triple_alloc fun inputCtx => ?_
  refine Triple.bind triple_alloc fun ep0Frame => ?_
  refine Triple.bind (triple_newRing List.mem_cons_self) fun ep0 => Triple.given fun hep0 => ?_
  have hinput : inputCtx ∈ [ep0Frame, inputCtx, devCtx] := by simp
  have hcontext : ∀ o, o + 32 ≤ frameBytes → Holds (Driver.Stays n) n ready (fun _ => True)
      [ep0Frame, inputCtx, devCtx] (writeContext (inputCtx.toNat + o)) := by
    intro o ho
    refine holds_log fun a ha => ?_
    rw [List.mem_singleton.mp ha]
    exact fine_write hinput ho
  refine Triple.bind (hcontext 0 (by decide)) fun _ => ?_
  refine Triple.bind (hcontext _ (by unfold frameBytes; omega)) fun _ => ?_
  refine Triple.bind (hcontext _ (by unfold frameBytes; omega)) fun _ => ?_
  refine Triple.bind (Q := fun dcbaa s => Inv n ready (fun _ => True)
      ([dcbaa] ++ [ep0Frame, inputCtx, devCtx]) s)
    (Triple.ask fun s hs => hs.learn fun f hf => ?_) fun dcbaa => ?_
  · rw [List.mem_singleton.mp hf]
    exact hs.array hready.1
  refine Triple.bind (Q := fun _ => Inv n ready (fun _ => True) [ep0Frame, inputCtx, devCtx])
    (Triple.post (holds_log fun a ha => ?_) fun _ s hs => hs.forget) fun _ => ?_
  · simp only [List.mem_cons, List.not_mem_nil, or_false] at ha
    rcases ha with rfl | rfl
    · exact fine_write (by simp) (by unfold frameBytes; omega)
    · exact fine_hand (o := 0) (f := devCtx) (by simp) (by unfold frameBytes; omega)
  refine Triple.bind (holds_pushCommand (fine_context hinput rfl
    (Or.inl (Trb.trbType_addressDevice _ _ _)))) fun _ => ?_
  refine Triple.bind (holds_awaitCommand hready.2) fun _ => ?_
  refine Triple.act fun s hs => ?_
  exact { hs.forgetHead.forgetHead.forgetHead with
    dev := fun d hd => by
      cases hd
      exact ⟨⟨hep0.mono hs.known, hs.known _ hinput, fun r hr => (nomatch hr),
        fun hne => absurd rfl hne, (by decide : (0 : UInt8).toNat ≤ 15),
        fun hne => absurd rfl hne⟩, trivial⟩ }

/-! ### The device -/

theorem holds_controlIn (hready : ready.2) (hK : ∀ d ep0, K d → K { d with ep0 })
    {reqType req : UInt8} {value index len : UInt16} {buf : UInt64}
    (hbuf : 0 < len → buf ∈ known ∧ len.toNat ≤ frameBytes)
    (hE : ∀ s, Inv n ready K known s → E s) :
    Holds E n ready K known (controlIn w caps reqType req value index buf len) := by
  have hnil : ∀ {t : Trb} {k : List UInt64}, t.buffers caps.contextBytes = [] →
      ∀ a ∈ t.buffers caps.contextBytes, a.Fine k n := by
    intro t k ht a ha
    rw [ht] at ha
    cases ha
  have hsetup : ∀ packet trt, (Trb.setupStage packet trt).buffers caps.contextBytes = [] := by
    intro packet trt
    refine Trb.buffers_nil ?_ ?_ ?_ ?_ <;> rw [Trb.trbType_setupStage] <;> decide
  have hstatus : ∀ a b, (Trb.statusStage a b).buffers caps.contextBytes = [] := by
    intro a b
    refine Trb.buffers_nil ?_ ?_ ?_ ?_ <;> rw [Trb.trbType_statusStage] <;> decide
  refine Triple.bind (triple_device hE) fun d => Triple.given fun ⟨hd, hdK⟩ => ?_
  refine Triple.bind (triple_pushRing (hd.ep0.mono fun f hf => List.mem_append_left _ hf)
    (hnil (hsetup _ _))) fun ep0 => Triple.given fun hep0 => ?_
  have hdata : Triple (Inv n ready K (d.owned ++ known))
      (pushData caps ep0 buf len)
        (fun ep0 s => Inv n ready K (d.owned ++ known) s ∧ ep0.Sound (d.owned ++ known))
      E := by
    refine Triple.ite (fun hlen => ?_) fun _ => Triple.pure fun s hs => ⟨hs, hep0⟩
    refine triple_pushRing hep0 (fine_transfer (List.mem_append_right _ (hbuf hlen).1) rfl
      (Or.inr (Trb.trbType_dataStage _ _ _)) rfl ?_)
    rw [UInt16.toNat_toUInt32]
    exact (hbuf hlen).2
  refine Triple.bind hdata fun ep0 => Triple.given fun hep0 => ?_
  refine Triple.bind (triple_pushRing hep0 (hnil (hstatus _ _))) fun ep0 =>
    Triple.given fun hep0 => ?_
  refine Triple.bind (triple_setDev (L := K) ?_ (hK d ep0 hdK)) fun _ =>
    Triple.bind (holds_poll hready) fun _ => Triple.bind (holds_orGiveUp hE) fun _ =>
      holds_require hE
  have hsound : d.Sound (d.owned ++ known) := hd.mono fun f hf => List.mem_append_left _ hf
  exact { hsound with ep0 := hep0 }

/-- What the device says of its interrupt endpoint. -/
theorem parse_modest (h : Modest caps received) {e : UInt8 × UInt16 × UInt8}
    (he : (parseConfig received).1.intEp = some e) :
    e.1.toNat ≤ 15 ∧ (e.1 ≠ 0 → e.2.1.toNat ≤ frameBytes) := by
  rcases (walk_found _ _ _).mp he with he | ⟨-, off, hchain, hle, hne₀, hint, rfl⟩
  · cases he
  · refine ⟨?_, fun hne => h.report off hchain hle hne₀ hint hne⟩
    dsimp only
    rw [UInt8.toNat_and]
    exact Nat.and_le_right

theorem holds_describeDevice (hready : ready.2) (h : Modest caps received) :
    Triple (Inv received.length ready (fun _ => True) []) (describeDevice w caps received)
      (fun _ => Inv received.length ready (fun _ => True) []) (Driver.Stays received.length) := by
  refine Triple.bind triple_alloc fun buf => ?_
  have hcontrol : ∀ {reqType req : UInt8} {value index len : UInt16}, len.toNat ≤ frameBytes →
      Holds (Driver.Stays received.length) received.length ready (fun _ => True) [buf]
        (controlIn w caps reqType req value index buf len) := fun hlen =>
    holds_controlIn hready (fun _ _ _ => trivial) (fun _ => ⟨List.mem_cons_self, hlen⟩)
      fun _ hs => hs.stays
  refine Triple.bind (hcontrol (by decide)) fun _ => ?_
  refine Triple.bind (holds_log fun a ha => ?_) fun _ => ?_
  · rw [List.mem_singleton.mp ha]
    exact fine_write (o := 0) List.mem_cons_self (by decide)
  refine Triple.bind (hcontrol (by decide)) fun _ => ?_
  refine Triple.bind (holds_log fun a ha => ?_) fun _ => ?_
  · -- The bytes of the header and of the chain were received.
    obtain ⟨x, hx, rfl⟩ := List.mem_map.mp ha
    rcases List.mem_append.mp hx with hx | hx
    · have hheader := h.header
      simp only [List.mem_cons, List.not_mem_nil, or_false] at hx
      show x < received.length
      omega
    · exact (walk_reads _ _ _).mpr h.chain x hx
  refine Triple.bind (triple_device fun _ hs => hs.stays) fun d => Triple.given fun ⟨hd, _⟩ => ?_
  refine Triple.bind (triple_setDev (L := fun _ => True) ?_ trivial) fun _ =>
    (holds_controlIn hready (fun _ _ _ => trivial) (fun hlen => absurd hlen (by decide))
      fun _ hs => hs.stays).post fun _ s hs => hs.forgetHead
  have hsound : d.Sound (d.owned ++ [buf]) := hd.mono fun f hf => List.mem_append_left _ hf
  cases hep : (parseConfig received).1.intEp with
  | none => exact { hsound with }
  | some e =>
    obtain ⟨hnum, hpacket⟩ := parse_modest h hep
    exact { hsound with epNum := hnum, packet := hpacket }

theorem holds_armReportRead :
    Holds (Driver.Stays n) n ready (fun d => d.intEpNum ≠ 0) known (armReportRead caps) := by
  refine Triple.bind (triple_device fun _ hs => hs.stays) fun d => Triple.given fun ⟨hd, hne⟩ => ?_
  refine Triple.bind
    (Q := fun ring s => Inv n ready (fun d => d.intEpNum ≠ 0) (d.owned ++ known) s ∧
      d.intRing = some ring)
    (Triple.orGiveUp (fun ring s hring hs => ⟨hs, hring⟩) fun _ _ hs => hs.stays)
    fun ring => Triple.given fun hring => ?_
  refine Triple.bind (Q := fun _ s => Inv n ready (fun d => d.intEpNum ≠ 0) (d.owned ++ known) s ∧
      d.reportBuf ≠ 0)
    (Triple.require (fun s hbuf hs => ⟨hs, hbuf⟩) fun _ _ hs => hs.stays)
    fun _ => Triple.given fun hbuf => ?_
  have hsound : d.Sound (d.owned ++ known) := hd.mono fun f hf => List.mem_append_left _ hf
  refine Triple.bind (triple_pushRing (hsound.intRing ring hring)
    (fine_transfer (hsound.reportBuf hbuf) rfl (Or.inl (Trb.trbType_normal _ _ _)) rfl ?_))
    fun ring => Triple.given fun hring => ?_
  · have hpacket := hd.packet hne
    rw [UInt16.toNat_toUInt32]
    show (if d.intEpMps ≤ 8 then 8 else d.intEpMps).toNat ≤ frameBytes
    split
    · decide
    · exact hpacket
  · refine triple_setDev ?_ hne
    exact { hsound with intRing := fun r hr => by cases hr; exact hring }

theorem dci_le {epNum : UInt8} (h : epNum.toNat ≤ 15) : (dci epNum true).toNat ≤ 31 := by
  have hall : ∀ v : Fin 16, (dci (UInt8.ofNat v) true).toNat ≤ 31 := by decide
  have hv := hall ⟨epNum.toNat, by omega⟩
  dsimp only at hv
  rw [UInt8.ofNat_toNat] at hv
  exact hv

theorem triple_configureInterruptEndpoint (hready : ready.2) :
    Triple (Inv n ready (fun _ => True) []) (configureInterruptEndpoint w caps)
      (fun _ => Driver.Stays n) (Driver.Stays n) := by
  have hcs : caps.contextBytes ≤ 64 := by
    unfold Capabilities.contextBytes
    split <;> omega
  unfold configureInterruptEndpoint
  refine Triple.bind (triple_device_eq fun _ hs => hs.stays) fun d => Triple.given fun ⟨hd, _⟩ => ?_
  refine Triple.bind (Q := fun _ => Inv n ready (fun d => d.intEpNum ≠ 0) (d.owned ++ []))
    (Triple.require (fun s hne hs => ?_) fun _ _ hs => hs.1.stays) fun _ => ?_
  · exact { hs.1 with
      dev := fun d' hd' => by
        rw [hs.2] at hd'
        cases hd'
        exact ⟨(hs.1.dev d hs.2).1, hne⟩ }
  have hcontrol : ∀ {E : Driver → Prop} {reqType req : UInt8} {value index : UInt16},
      (∀ s, Inv n ready (fun d => d.intEpNum ≠ 0) (d.owned ++ []) s → E s) →
      Holds E n ready (fun d => d.intEpNum ≠ 0) (d.owned ++ [])
        (controlIn w caps reqType req value index 0 0) := fun hE =>
    holds_controlIn hready (fun _ _ hne => hne) (fun hlen => absurd hlen (by decide)) hE
  refine Triple.bind (hcontrol fun _ hs => hs.stays) fun _ => ?_
  refine Triple.bind (Triple.attempt (Q := fun _ => Inv n ready (fun d => d.intEpNum ≠ 0)
    (d.owned ++ [])) (hcontrol fun _ hs => hs)) fun _ => ?_
  refine Triple.bind triple_alloc fun ringFrame => ?_
  refine Triple.bind (triple_newRing List.mem_cons_self) fun ring => Triple.given fun hring => ?_
  have hinput : d.inputCtx ∈ ringFrame :: (d.owned ++ []) :=
    List.mem_cons_of_mem _ (List.mem_append_left _ hd.inputCtx)
  have hdci : (dci d.intEpNum true).toNat ≤ 31 := dci_le hd.epNum
  have hcontext : ∀ o len, o + len ≤ frameBytes → Holds (Driver.Stays n) n ready
      (fun d => d.intEpNum ≠ 0) (ringFrame :: (d.owned ++ []))
        (log [.write (d.inputCtx.toNat + o) len]) := by
    intro o len ho
    refine holds_log fun a ha => ?_
    rw [List.mem_singleton.mp ha]
    exact fine_write hinput ho
  refine Triple.bind (hcontext 0 _ (Nat.le_refl _)) fun _ => ?_
  refine Triple.bind (hcontext 0 _ (by decide)) fun _ => ?_
  refine Triple.bind (hcontext _ _ (by unfold frameBytes; omega)) fun _ => ?_
  refine Triple.bind (hcontext _ _ ?_) fun _ => ?_
  · have hle : caps.contextBytes * (1 + (dci d.intEpNum true).toNat) ≤ 64 * 32 :=
      Nat.mul_le_mul hcs (by omega)
    unfold frameBytes
    omega
  refine Triple.bind (holds_pushCommand (fine_context hinput rfl
    (Or.inr (Trb.trbType_configureEndpoint _ _)))) fun _ => ?_
  refine Triple.bind (holds_awaitCommand hready) fun _ => ?_
  refine Triple.bind (Q := fun _ => Inv n ready (fun d => d.intEpNum ≠ 0) [])
    (Triple.act fun s hs => ?_) fun _ => ?_
  · exact { hs with
      known := fun f hf => (nomatch hf)
      dev := fun d' hd' => by
        obtain ⟨d₀, hd₀, rfl⟩ := Option.map_eq_some_iff.mp hd'
        obtain ⟨hsound, hne⟩ := hs.dev d₀ hd₀
        exact ⟨{ hsound with intRing := fun r hr => by cases hr; exact hring.mono hs.known }, hne⟩ }
  refine Triple.bind triple_alloc fun reportBuf => ?_
  refine Triple.bind (Q := fun _ => Inv n ready (fun d => d.intEpNum ≠ 0) [])
    (Triple.act fun s hs => ?_) fun _ => holds_armReportRead.post fun _ _ hs => hs.stays
  exact { hs.forgetHead with
    dev := fun d' hd' => by
      obtain ⟨d₀, hd₀, rfl⟩ := Option.map_eq_some_iff.mp hd'
      obtain ⟨hsound, hne⟩ := hs.dev d₀ hd₀
      exact ⟨{ hsound with reportBuf := fun _ => hs.known _ List.mem_cons_self }, hne⟩ }

theorem holds_reset : Holds (Driver.Stays n) n ready K known (reset w) := by
  refine Triple.bind (Triple.ite (fun _ => holds_wait) fun _ => holds_pure) fun _ => ?_
  exact Triple.bind holds_wait fun _ => holds_wait

/-- A modest controller and a modest device keep the driver in its frames. -/
theorem stays_of_modest (w : World) (h : Modest caps received) :
    (broughtUp w caps received).Stays received.length := by
  have hfresh : Inv received.length (False, False) (fun _ => True) [] Driver.fresh := {
    stays := fun a ha => (nomatch ha)
    known := fun f hf => (nomatch hf)
    array := fun h => h.elim
    events := fun h => h.elim
    cmd := fun r hr => (nomatch hr)
    dev := fun d hd => (nomatch hd) }
  have hrun : Triple (Inv received.length (False, False) (fun _ => True) [])
      (bringUp w caps received) (fun _ => Driver.Stays received.length)
        (Driver.Stays received.length) := by
    refine Triple.bind holds_reset fun _ => ?_
    refine Triple.bind (triple_programAndRun h.scratch) fun _ => ?_
    refine Triple.bind (holds_enableSlot trivial) fun slot => ?_
    refine Triple.bind (holds_addressDevice ⟨trivial, trivial⟩) fun _ => ?_
    refine Triple.bind (holds_describeDevice trivial h) fun _ => ?_
    exact triple_configureInterruptEndpoint trivial
  cases hend : (bringUp w caps received Driver.fresh).1 with
  | none => exact hrun.stop _ hfresh hend
  | some a => exact hrun.done _ a hfresh hend

end Usb

end Plinth
