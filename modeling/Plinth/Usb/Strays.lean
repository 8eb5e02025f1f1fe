import Plinth.Usb.Stays

/-!
# `Plinth.Usb.Strays`: where the bring-up leaves its memory

In `willing` every allocation, every wait and every command succeeds, and the frames lie apart.
There the driver comes to the end of the bring-up, so whatever is not modest shows: a write behind
the scratchpad array, a report that does not fit its frame, a byte that the device did not send.

Together with `stays_of_modest` this is `bringUp_stays`.
-/

set_option autoImplicit false

namespace Plinth

open Procedure

namespace Usb

/-! ### A willing world -/

/-- The distance of the frames. -/
def frameStep : Nat := 0x2000

/-- Everything succeeds. The frames lie apart, and no port is connected. -/
def willing : World where
  frames k := some (UInt64.ofNat (frameStep * (k % 2 ^ 32 + 1)))
  running := true
  waits _ := true
  connected _ := false
  speed := 3
  events _ want := some ⟨0, 0x1000000, (want.code <<< 10) ||| 0x1000000⟩
  dequeue _ := ⟨0, by decide⟩

/-- The frame is one of a willing world. -/
def Spaced (f : UInt64) : Prop := f.toNat % frameStep = 0 ∧ f ≠ 0

theorem spaced_willing {k : Nat} {f : UInt64} (h : willing.frames k = some f) : Spaced f := by
  rw [← Option.some.inj h]
  have hk : k % 2 ^ 32 < 2 ^ 32 := Nat.mod_lt _ (by decide)
  have hlt : frameStep * (k % 2 ^ 32 + 1) < 2 ^ 64 := by unfold frameStep; omega
  have hnat :
    (UInt64.ofNat (frameStep * (k % 2 ^ 32 + 1))).toNat = frameStep * (k % 2 ^ 32 + 1) := by
    rw [UInt64.toNat_ofNat', Nat.mod_eq_of_lt hlt]
  refine ⟨by rw [hnat, Nat.mul_mod_right], fun h => ?_⟩
  rw [h] at hnat
  have hzero : (0 : UInt64).toNat = 0 := rfl
  unfold frameStep at hnat
  omega

/-- The access is not in a frame of a willing world, or the byte was not received. -/
def Access.Strays (received : Nat) : Access → Prop
  | .write addr len | .hand addr len => frameBytes < addr % frameStep + len
  | .read off => received ≤ off

/-- The driver left its frames. -/
def Strayed (n : Nat) (s : Driver) : Prop := ∃ a ∈ s.trace, a.Strays n

variable {n : Nat} {s : Driver} {α β : Type}

theorem not_fine_of_strays {a : Access} (h : a.Strays n) {frames : List UInt64}
    (hframes : ∀ f ∈ frames, Spaced f) : ¬ a.Fine frames n := by
  have hframe : ∀ {addr len : Nat} {f : UInt64}, f ∈ frames → f.toNat ≤ addr →
      addr + len ≤ f.toNat + frameBytes → frameBytes < addr % frameStep + len → False := by
    intro addr len f hf hle hend hlt
    have hspaced := (hframes f hf).1
    unfold frameStep at hspaced hlt
    unfold frameBytes at hend hlt
    omega
  cases a with
  | write addr len =>
    rintro ⟨f, hf, hle, hend⟩
    exact hframe hf hle hend h
  | hand addr len =>
    rintro ⟨f, hf, hle, hend⟩
    exact hframe hf hle hend h
  | read off =>
    intro hlt
    have h : n ≤ off := h
    have hlt : off < n := hlt
    omega

/-! ### What every procedure keeps -/

/-- The trace grows, and the frames are those of a willing world. -/
def Onward (s t : Driver) : Prop :=
  (∃ more, t.trace = s.trace ++ more) ∧
    ((∀ f ∈ s.frames, Spaced f) → ∀ f ∈ t.frames, Spaced f)

theorem onward : Procedure.Preorder Onward where
  refl s := ⟨⟨[], (List.append_nil _).symm⟩, fun h => h⟩
  trans s t u hst htu := by
    obtain ⟨⟨l, hl⟩, hframes⟩ := hst
    obtain ⟨⟨m, hm⟩, hframes'⟩ := htu
    exact ⟨⟨l ++ m, by rw [hm, hl, List.append_assoc]⟩, fun h => hframes' (hframes h)⟩

theorem Strayed.onward {t : Driver} (h : Strayed n s) (hst : Onward s t) : Strayed n t := by
  obtain ⟨a, ha, hstrays⟩ := h
  obtain ⟨⟨more, hmore⟩, -⟩ := hst
  exact ⟨a, by rw [hmore]; exact List.mem_append_left _ ha, hstrays⟩

/-- A change that leaves the trace and the frames alone. -/
theorem keeps_act {g : Driver → Driver} (h : ∀ s, (g s).trace = s.trace ∧ (g s).frames = s.frames) :
    Keeps Onward (act g) := fun s =>
  ⟨⟨[], by rw [List.append_nil]; exact (h s).1⟩,
    fun hs => by rw [show (act g s).2.frames = _ from (h s).2]; exact hs⟩

theorem keeps_log (as : List Access) : Keeps Onward (log as) := fun _ => ⟨⟨as, rfl⟩, fun h => h⟩

theorem keeps_alloc : Keeps Onward (allocZeroed willing) := by
  refine Keeps.bind onward (Keeps.ask onward _) fun k => ?_
  refine Keeps.bind onward (keeps_act fun _ => ⟨rfl, rfl⟩) fun _ => ?_
  cases hf : willing.frames k with
  | none => cases hf
  | some f =>
    have hadd : Keeps Onward (act fun s : Driver => { s with frames := f :: s.frames }) := by
      refine fun s => ⟨⟨[], (List.append_nil _).symm⟩, fun hs g hg => ?_⟩
      rcases List.mem_cons.mp hg with rfl | hg
      · exact spaced_willing hf
      · exact hs g hg
    have hrest :
      Keeps Onward ((act fun s : Driver => { s with frames := f :: s.frames }) >>= fun _ =>
        log [.write f.toNat frameBytes] >>= fun _ => pure f) :=
      Keeps.bind onward hadd fun _ => Keeps.bind onward (keeps_log _) fun _ => Keeps.pure onward _
    exact hrest

theorem keeps_wait : Keeps Onward (waitUntil willing) :=
  Keeps.bind onward (Keeps.ask onward _) fun _ =>
    Keeps.bind onward (keeps_act fun _ => ⟨rfl, rfl⟩) fun _ => Keeps.require onward _

theorem keeps_poll {want : TrbType} : Keeps Onward (pollEvent willing want) :=
  Keeps.bind onward (Keeps.ask onward _) fun _ =>
    Keeps.bind onward (keeps_act fun _ => ⟨rfl, rfl⟩) fun _ =>
      Keeps.bind onward (Keeps.ask onward _) fun _ =>
        Keeps.bind onward (keeps_log _) fun _ => Keeps.pure onward _

theorem keeps_newRing {f : UInt64} : Keeps Onward (newRing f) :=
  Keeps.bind onward (Keeps.orGiveUp onward _) fun _ =>
    Keeps.bind onward (keeps_log _) fun _ =>
      Keeps.bind onward (keeps_log _) fun _ => Keeps.pure onward _

variable {caps : Capabilities} {received : List UInt8} {C : Option Ring → Option Device → Prop}

theorem keeps_pushRing {r : Ring} {t : Trb} : Keeps Onward (pushRing caps r t) :=
  Keeps.bind onward (keeps_log _) fun _ =>
    Keeps.bind onward (keeps_log _) fun _ => Keeps.pure onward _

theorem keeps_pushCommand {t : Trb} : Keeps Onward (pushCommand caps t) :=
  Keeps.bind onward (Keeps.ask onward _) fun _ =>
    Keeps.bind onward (Keeps.orGiveUp onward _) fun _ =>
      Keeps.bind onward keeps_pushRing fun _ => keeps_act fun _ => ⟨rfl, rfl⟩

theorem keeps_awaitCommand : Keeps Onward (awaitCommand willing) :=
  Keeps.bind onward keeps_poll fun _ => Keeps.bind onward (Keeps.orGiveUp onward _) fun _ =>
    Keeps.bind onward (Keeps.require onward _) fun _ => Keeps.pure onward _

theorem keeps_device : Keeps Onward device :=
  Keeps.bind onward (Keeps.ask onward _) fun _ => Keeps.orGiveUp onward _

theorem keeps_scratchpads {dcbaa : UInt64} : Keeps Onward (scratchpads willing caps dcbaa) := by
  refine Keeps.ite (Keeps.bind onward keeps_alloc fun arr => ?_) (Keeps.pure onward _)
  refine Keeps.bind onward (Keeps.forAll onward fun i => ?_) fun _ => keeps_log _
  exact Keeps.bind onward keeps_alloc fun _ => keeps_log _

theorem keeps_resetPorts (ps : List Nat) : Keeps Onward (resetPorts willing ps) := by
  induction ps with
  | nil => exact Keeps.pure onward _
  | cons p ps ih =>
    refine Keeps.ite (Keeps.bind onward keeps_poll fun ev => ?_) ih
    exact Keeps.ite (keeps_act fun _ => ⟨rfl, rfl⟩) ih

theorem keeps_programAndRun : Keeps Onward (programAndRun willing caps) := by
  refine Keeps.bind onward keeps_alloc fun _ => Keeps.bind onward keeps_scratchpads fun _ => ?_
  refine Keeps.bind onward (keeps_log _) fun _ => ?_
  refine Keeps.bind onward (keeps_act fun _ => ⟨rfl, rfl⟩) fun _ => ?_
  refine Keeps.bind onward keeps_alloc fun _ => Keeps.bind onward keeps_newRing fun _ => ?_
  refine Keeps.bind onward (keeps_act fun _ => ⟨rfl, rfl⟩) fun _ => ?_
  refine Keeps.bind onward keeps_alloc fun _ => Keeps.bind onward keeps_alloc fun _ => ?_
  refine Keeps.bind onward (keeps_log _) fun _ => Keeps.bind onward (keeps_log _) fun _ => ?_
  refine Keeps.bind onward (keeps_act fun _ => ⟨rfl, rfl⟩) fun _ => ?_
  exact Keeps.bind onward keeps_wait fun _ => keeps_resetPorts _

theorem keeps_enableSlot : Keeps Onward (enableSlot willing caps) :=
  Keeps.bind onward keeps_pushCommand fun _ =>
    Keeps.bind onward keeps_awaitCommand fun _ => Keeps.pure onward _

theorem keeps_addressDevice {slot : UInt8} : Keeps Onward (addressDevice willing caps slot) := by
  refine Keeps.bind onward (Keeps.ask onward _) fun _ => Keeps.bind onward keeps_alloc fun _ => ?_
  refine Keeps.bind onward keeps_alloc fun _ => Keeps.bind onward keeps_alloc fun _ => ?_
  refine Keeps.bind onward keeps_newRing fun _ => Keeps.bind onward (keeps_log _) fun _ => ?_
  refine Keeps.bind onward (keeps_log _) fun _ => Keeps.bind onward (keeps_log _) fun _ => ?_
  refine Keeps.bind onward (Keeps.ask onward _) fun _ => Keeps.bind onward (keeps_log _) fun _ => ?_
  refine Keeps.bind onward keeps_pushCommand fun _ => ?_
  exact Keeps.bind onward keeps_awaitCommand fun _ => keeps_act fun _ => ⟨rfl, rfl⟩

theorem keeps_controlIn {reqType req : UInt8} {value index len : UInt16} {buf : UInt64} :
    Keeps Onward (controlIn willing caps reqType req value index buf len) := by
  refine Keeps.bind onward keeps_device fun _ => Keeps.bind onward keeps_pushRing fun _ => ?_
  refine Keeps.bind onward (Keeps.ite keeps_pushRing (Keeps.pure onward _)) fun _ => ?_
  refine Keeps.bind onward keeps_pushRing fun _ => ?_
  refine Keeps.bind onward (keeps_act fun _ => ⟨rfl, rfl⟩) fun _ => ?_
  exact Keeps.bind onward keeps_poll fun _ => Keeps.bind onward (Keeps.orGiveUp onward _) fun _ =>
    Keeps.require onward _

theorem keeps_describeDevice : Keeps Onward (describeDevice willing caps received) := by
  refine Keeps.bind onward keeps_alloc fun _ => Keeps.bind onward keeps_controlIn fun _ => ?_
  refine Keeps.bind onward (keeps_log _) fun _ => Keeps.bind onward keeps_controlIn fun _ => ?_
  refine Keeps.bind onward (keeps_log _) fun _ => Keeps.bind onward keeps_device fun _ => ?_
  exact Keeps.bind onward (keeps_act fun _ => ⟨rfl, rfl⟩) fun _ => keeps_controlIn

theorem keeps_armReportRead : Keeps Onward (armReportRead caps) := by
  refine Keeps.bind onward keeps_device fun _ => Keeps.bind onward (Keeps.orGiveUp onward _)
    fun _ => ?_
  refine Keeps.bind onward (Keeps.require onward _) fun _ => Keeps.bind onward keeps_pushRing
    fun _ => ?_
  exact keeps_act fun _ => ⟨rfl, rfl⟩

theorem keeps_configureInterruptEndpoint :
    Keeps Onward (configureInterruptEndpoint willing caps) := by
  refine Keeps.bind onward keeps_device fun _ => Keeps.bind onward (Keeps.require onward _) fun _ =>
    ?_
  refine Keeps.bind onward keeps_controlIn fun _ => ?_
  refine Keeps.bind onward (Keeps.attempt keeps_controlIn) fun _ => ?_
  refine Keeps.bind onward keeps_alloc fun _ => Keeps.bind onward keeps_newRing fun _ => ?_
  refine Keeps.bind onward (keeps_log _) fun _ => Keeps.bind onward (keeps_log _) fun _ => ?_
  refine Keeps.bind onward (keeps_log _) fun _ => Keeps.bind onward (keeps_log _) fun _ => ?_
  refine Keeps.bind onward keeps_pushCommand fun _ => Keeps.bind onward keeps_awaitCommand fun _ =>
    ?_
  refine Keeps.bind onward (keeps_act fun _ => ⟨rfl, rfl⟩) fun _ => Keeps.bind onward keeps_alloc
    fun _ => ?_
  exact Keeps.bind onward (keeps_act fun _ => ⟨rfl, rfl⟩) fun _ => keeps_armReportRead

theorem keeps_reset : Keeps Onward (reset willing) :=
  Keeps.bind onward (Keeps.ite keeps_wait (Keeps.pure onward _)) fun _ =>
    Keeps.bind onward keeps_wait fun _ => keeps_wait

theorem keeps_bringUp : Keeps Onward (bringUp willing caps received) :=
  Keeps.bind onward keeps_reset fun _ => Keeps.bind onward keeps_programAndRun fun _ =>
    Keeps.bind onward keeps_enableSlot fun _ => Keeps.bind onward keeps_addressDevice fun _ =>
      Keeps.bind onward keeps_describeDevice fun _ => keeps_configureInterruptEndpoint

/-! ### Success -/

/-- The procedure ends with a value. -/
abbrev Succeeds (P : Driver → Prop) (m : Proc Driver α) (Q : α → Driver → Prop) : Prop :=
  Triple P m Q fun _ => False

/-- What is said of the command ring and of the device. -/
abbrev On (C : Option Ring → Option Device → Prop) (s : Driver) : Prop := C s.cmd s.dev

theorem succeeds_alloc : Succeeds (On C) (allocZeroed willing) fun f s => On C s ∧ Spaced f := by
  refine Triple.bind (Q := fun _ => On C) (Triple.ask fun _ hs => hs) fun k => ?_
  refine Triple.bind (Q := fun _ => On C) (Triple.act fun _ hs => hs) fun _ => ?_
  refine Triple.bind (Q := fun f s => On C s ∧ Spaced f)
    (Triple.orGiveUp (fun f s hf hs => ⟨hs, spaced_willing hf⟩) fun s h => nomatch h) fun f => ?_
  refine Triple.bind (Q := fun _ s => On C s ∧ Spaced f) (Triple.act fun _ hs => hs) fun _ => ?_
  exact Triple.bind (Q := fun _ s => On C s ∧ Spaced f) (Triple.act fun _ hs => hs) fun _ =>
    Triple.pure fun _ hs => hs

theorem succeeds_log {as : List Access} : Succeeds (On C) (log as) fun _ => On C :=
  Triple.act fun _ hs => hs

theorem succeeds_wait : Succeeds (On C) (waitUntil willing) fun _ => On C := by
  refine Triple.bind (Q := fun _ => On C) (Triple.ask fun _ hs => hs) fun k => ?_
  refine Triple.bind (Q := fun _ => On C) (Triple.act fun _ hs => hs) fun _ => ?_
  exact Triple.require (fun _ _ hs => hs) fun _ h => absurd rfl h

/-- A poll finds an event of success. -/
theorem succeeds_poll {want : TrbType} : Succeeds (On C) (pollEvent willing want) fun ev s =>
    On C s ∧ ∃ trb, ev = some trb ∧ trb.completionCode = 1 := by
  refine Triple.bind (Q := fun _ => On C) (Triple.ask fun _ hs => hs) fun k => ?_
  refine Triple.bind (Q := fun _ => On C) (Triple.act fun _ hs => hs) fun _ => ?_
  refine Triple.bind (Q := fun _ => On C) (Triple.ask fun _ hs => hs) fun _ => ?_
  refine Triple.bind (Q := fun _ => On C) (Triple.act fun _ hs => hs) fun _ => ?_
  refine Triple.pure fun s hs => ⟨hs, _, Option.filter_eq_some_iff.mpr ⟨rfl, ?_⟩, ?_⟩
  · cases want <;> decide +kernel
  · show (field 0x1000000 24 8).toUInt8 = 1
    decide +kernel

theorem succeeds_awaitCommand : Succeeds (On C) (awaitCommand willing) fun _ => On C := by
  refine Triple.bind succeeds_poll fun ev => Triple.given fun ⟨trb, hev, hcode⟩ => ?_
  refine Triple.bind (Q := fun ev s => On C s ∧ ev = trb) (Triple.orGiveUp (fun x s hx hs => ?_)
    fun s h => ?_) fun ev => Triple.given fun hev' => ?_
  · rw [hev] at hx
    exact ⟨hs, (Option.some.inj hx).symm⟩
  · rw [hev] at h
    cases h
  · rw [hev']
    exact Triple.bind (Q := fun _ => On C) (Triple.require (fun _ _ hs => hs)
      fun _ h => absurd hcode h) fun _ => Triple.pure fun _ hs => hs

theorem succeeds_newRing {f : UInt64} : Succeeds (On C) (newRing f) fun _ => On C := by
  refine Triple.bind (Q := fun _ => On C) (Triple.orGiveUp (fun _ _ _ hs => hs) fun s h => ?_)
    fun _ => Triple.bind succeeds_log fun _ => Triple.bind succeeds_log fun _ =>
      Triple.pure fun _ hs => hs
  rw [ProducerRing.new, if_pos (by decide)] at h
  cases h

theorem succeeds_pushRing {r : Ring} {t : Trb} :
    Succeeds (On C) (pushRing caps r t) fun _ => On C :=
  Triple.bind succeeds_log fun _ => Triple.bind succeeds_log fun _ => Triple.pure fun _ hs => hs

/-- There is a command ring, and `D` is said of the device. -/
abbrev WithCmd (D : Option Device → Prop) : Driver → Prop := On fun cmd dev => cmd.isSome ∧ D dev

variable {D : Option Device → Prop}

theorem succeeds_pushCommand {t : Trb} :
    Succeeds (WithCmd D) (pushCommand caps t) fun _ => WithCmd D := by
  refine Triple.bind (Q := fun cmd s => WithCmd D s ∧ cmd.isSome)
    (Triple.ask fun s hs => ⟨hs, hs.1⟩)
    fun cmd => Triple.given fun hcmd => ?_
  refine Triple.bind (Q := fun _ => WithCmd D) (Triple.orGiveUp (fun _ _ _ hs => hs) fun s h => ?_)
    fun r => Triple.bind succeeds_pushRing fun r => Triple.act fun s hs => ⟨rfl, hs.2⟩
  rw [h] at hcmd
  cases hcmd

theorem succeeds_scratchpads {dcbaa : UInt64} :
    Succeeds (On C) (scratchpads willing caps dcbaa) fun _ => On C := by
  refine Triple.ite (fun _ => ?_) fun _ => Triple.pure fun _ hs => hs
  refine Triple.bind succeeds_alloc fun arr => Triple.given fun _ => ?_
  refine Triple.bind (Triple.forAll fun i _ => ?_) fun _ => succeeds_log
  exact Triple.bind succeeds_alloc fun _ => Triple.given fun _ => succeeds_log

theorem succeeds_resetPorts (ps : List Nat) :
    Succeeds (On C) (resetPorts willing ps) fun _ => On C := by
  induction ps with
  | nil => exact Triple.pure fun _ hs => hs
  | cons p ps ih => exact Triple.ite (fun h => absurd h Bool.false_ne_true) fun _ => ih

theorem succeeds_programAndRun :
    Succeeds (fun _ => True) (programAndRun willing caps) fun _ => WithCmd fun _ => True := by
  have hany : ∀ {α : Type} {m : Proc Driver α} {Q : α → Driver → Prop},
      Succeeds (On fun _ _ => True) m Q → Succeeds (fun _ => True) m Q := fun h => h
  refine hany (Triple.bind succeeds_alloc fun _ => Triple.given fun _ => ?_)
  refine Triple.bind succeeds_scratchpads fun _ => Triple.bind succeeds_log fun _ => ?_
  refine Triple.bind (Q := fun _ => On fun _ _ => True) (Triple.act fun _ hs => hs) fun _ => ?_
  refine Triple.bind succeeds_alloc fun _ => Triple.given fun _ => ?_
  refine Triple.bind succeeds_newRing fun _ => ?_
  refine Triple.bind (Q := fun _ => WithCmd fun _ => True)
    (Triple.act fun _ _ => ⟨rfl, trivial⟩) fun _ => ?_
  refine Triple.bind succeeds_alloc fun _ => Triple.given fun _ => ?_
  refine Triple.bind succeeds_alloc fun _ => Triple.given fun _ => ?_
  refine Triple.bind succeeds_log fun _ => Triple.bind succeeds_log fun _ => ?_
  refine Triple.bind (Q := fun _ => WithCmd fun _ => True) (Triple.act fun _ hs => hs) fun _ => ?_
  exact Triple.bind succeeds_wait fun _ => succeeds_resetPorts _

theorem succeeds_enableSlot : Succeeds (WithCmd D) (enableSlot willing caps) fun _ => WithCmd D :=
  Triple.bind succeeds_pushCommand fun _ => Triple.bind succeeds_awaitCommand fun _ =>
    Triple.pure fun _ hs => hs

theorem succeeds_addressDevice {slot : UInt8} :
    Succeeds (WithCmd D) (addressDevice willing caps slot) fun _ => WithCmd fun dev =>
      dev.isSome := by
  refine Triple.bind (Q := fun _ => WithCmd D) (Triple.ask fun _ hs => hs) fun _ => ?_
  refine Triple.bind succeeds_alloc fun _ => Triple.given fun _ => ?_
  refine Triple.bind succeeds_alloc fun _ => Triple.given fun _ => ?_
  refine Triple.bind succeeds_alloc fun _ => Triple.given fun _ => ?_
  refine Triple.bind succeeds_newRing fun _ => Triple.bind succeeds_log fun _ => ?_
  refine Triple.bind succeeds_log fun _ => Triple.bind succeeds_log fun _ => ?_
  refine Triple.bind (Q := fun _ => WithCmd D) (Triple.ask fun _ hs => hs) fun _ => ?_
  refine Triple.bind succeeds_log fun _ => Triple.bind succeeds_pushCommand fun _ => ?_
  exact Triple.bind succeeds_awaitCommand fun _ => Triple.act fun _ hs => ⟨hs.1, rfl⟩

/-- The device that `device` yields. -/
theorem succeeds_device {F : Device → Prop} :
    Succeeds (WithCmd fun dev => ∃ d, dev = some d ∧ F d) device fun d s =>
      (WithCmd (fun dev => dev = some d) s) ∧ F d := by
  refine Triple.bind
    (Q := fun dev s => (WithCmd (fun dev => ∃ d, dev = some d ∧ F d) s) ∧ dev = s.dev)
    (Triple.ask fun _ hs => ⟨hs, rfl⟩) fun dev => ?_
  refine Triple.orGiveUp (fun d s hd hs => ?_) fun s hnone hs => ?_
  · obtain ⟨⟨hcmd, d', hd', hF⟩, heq⟩ := hs
    rw [hd, hd'] at heq
    cases heq
    exact ⟨⟨hcmd, hd'⟩, hF⟩
  · obtain ⟨⟨_, d', hd', _⟩, heq⟩ := hs
    rw [hnone, hd'] at heq
    cases heq

theorem succeeds_controlIn {F : Device → Prop} (hF : ∀ d ep0, F d → F { d with ep0 })
    {reqType req : UInt8} {value index len : UInt16} {buf : UInt64} :
    Succeeds (WithCmd fun dev => ∃ d, dev = some d ∧ F d)
      (controlIn willing caps reqType req value index buf len)
        fun _ => WithCmd fun dev => ∃ d, dev = some d ∧ F d := by
  refine Triple.bind succeeds_device fun d => Triple.given fun hd => ?_
  refine Triple.bind succeeds_pushRing fun _ => ?_
  refine Triple.bind (Q := fun _ => WithCmd fun dev => dev = some d)
    (Triple.ite (fun _ => succeeds_pushRing) fun _ => Triple.pure fun _ hs => hs) fun _ => ?_
  refine Triple.bind succeeds_pushRing fun ep0 => ?_
  refine Triple.bind (Q := fun _ => WithCmd fun dev => ∃ d, dev = some d ∧ F d)
    (Triple.act fun s hs => ⟨hs.1, _, rfl, hF d ep0 hd⟩) fun _ => ?_
  refine Triple.bind succeeds_poll fun ev => Triple.given fun ⟨trb, hev, hcode⟩ => ?_
  refine Triple.bind (Q := fun ev s => (WithCmd (fun dev => ∃ d, dev = some d ∧ F d) s) ∧ ev = trb)
    (Triple.orGiveUp (fun x s hx hs => ?_) fun s h => ?_) fun ev => Triple.given fun hev' => ?_
  · rw [hev] at hx
    exact ⟨hs, (Option.some.inj hx).symm⟩
  · rw [hev] at h
    cases h
  · rw [hev']
    exact Triple.require (fun _ _ hs => hs) fun _ h => absurd (Or.inl hcode) h

/-- The device has the interrupt endpoint that it described. -/
def Described (received : List UInt8) (d : Device) : Prop :=
  ∀ e, (parseConfig received).1.intEp = some e → d.intEpNum = e.1 ∧ d.intEpMps = e.2.1

theorem succeeds_describeDevice :
    Succeeds (WithCmd fun dev => dev.isSome) (describeDevice willing caps received)
      fun _ => WithCmd fun dev => ∃ d, dev = some d ∧ Described received d := by
  have hcontrol : ∀ {reqType req : UInt8} {value index len : UInt16} {buf : UInt64},
      Succeeds (WithCmd fun dev => ∃ d, dev = some d ∧ True)
        (controlIn willing caps reqType req value index buf len)
          fun _ => WithCmd fun dev => ∃ d, dev = some d ∧ True :=
    succeeds_controlIn fun _ _ h => h
  have hsome : ∀ s, WithCmd (fun dev => dev.isSome) s →
      WithCmd (fun dev => ∃ d, dev = some d ∧ True) s := by
    rintro s ⟨hcmd, hdev⟩
    obtain ⟨d, hd⟩ := Option.isSome_iff_exists.mp hdev
    exact ⟨hcmd, d, hd, trivial⟩
  refine (Triple.bind succeeds_alloc fun buf => Triple.given fun _ => ?_ :
    Succeeds (WithCmd fun dev => ∃ d, dev = some d ∧ True) _ _).pre hsome
  refine Triple.bind hcontrol fun _ => Triple.bind succeeds_log fun _ => ?_
  refine Triple.bind hcontrol fun _ => Triple.bind succeeds_log fun _ => ?_
  refine Triple.bind succeeds_device fun d => Triple.given fun _ => ?_
  refine Triple.bind (Q := fun _ => WithCmd fun dev => ∃ d, dev = some d ∧ Described received d)
    (Triple.act fun s hs => ⟨hs.1, _, rfl, ?_⟩) fun _ =>
      succeeds_controlIn fun d ep0 (h : Described received d) => h
  intro e he
  rw [he]
  exact ⟨rfl, rfl⟩

theorem succeeds_reset : Succeeds (On C) (reset willing) fun _ => On C :=
  Triple.bind (Triple.ite (fun _ => succeeds_wait) fun _ => Triple.pure fun _ hs => hs) fun _ =>
    Triple.bind succeeds_wait fun _ => succeeds_wait

/-! ### Where the driver strays -/

/-- The procedure leaves the frames, whatever its end. -/
abbrev Emits (n : Nat) (P : Driver → Prop) (m : Proc Driver α) : Prop :=
  Triple P m (fun _ => Strayed n) (Strayed n)

variable {P : Driver → Prop} {m : Proc Driver α} {f : α → Proc Driver β} {Q : α → Driver → Prop}

theorem Emits.left (h : Emits n P m) (hf : ∀ a, Keeps Onward (f a)) : Emits n P (m >>= f) := by
  refine Triple.bind h fun a => ⟨fun s b hs _ => ?_, fun s hs _ => ?_⟩
  · exact hs.onward (hf a s)
  · exact hs.onward (hf a s)

theorem Emits.right (hm : Succeeds P m Q) (hf : ∀ a, Emits n (Q a) (f a)) : Emits n P (m >>= f) :=
  Triple.bind (hm.conseq (fun _ hs => hs) (fun _ _ hq => hq) fun _ h => h.elim) hf

theorem emits_log {as : List Access} (h : ∃ a ∈ as, a.Strays n) : Emits n P (log as) :=
  Triple.act fun s _ => by
    obtain ⟨a, ha, hstrays⟩ := h
    exact ⟨a, List.mem_append_right _ ha, hstrays⟩

theorem emits_forAll {ι : Type} {l : List ι} {g : ι → Proc Driver Unit} {i : ι} (hi : i ∈ l)
    (hg : ∀ j, Succeeds P (g j) fun _ => P) (hkeeps : ∀ j, Keeps Onward (g j))
    (h : Emits n P (g i)) : Emits n P (forAll l g) := by
  induction l with
  | nil => cases hi
  | cons j l ih =>
    rcases List.mem_cons.mp hi with rfl | hi
    · exact Emits.left h fun _ => Keeps.forAll onward hkeeps
    · exact Emits.right (hg j) fun _ => ih hi

/-- The 513th scratchpad buffer does not fit the array. -/
theorem emits_scratchpads (h : 512 < caps.scratch) {dcbaa : UInt64} :
    Emits n (On C) (scratchpads willing caps dcbaa) := by
  refine Triple.ite (fun _ => ?_) fun hzero => absurd (by omega) hzero
  refine Emits.right succeeds_alloc fun arr => Triple.given fun harr => ?_
  refine Emits.left (emits_forAll (i := 512) (List.mem_range.mpr h) (fun j => ?_) (fun j => ?_) ?_)
    fun _ => keeps_log _
  · exact Triple.bind succeeds_alloc fun _ => Triple.given fun _ => succeeds_log
  · exact Keeps.bind onward keeps_alloc fun _ => keeps_log _
  · refine Emits.right succeeds_alloc fun buf => emits_log ⟨_, List.mem_cons_self, ?_⟩
    have hmod := harr.1
    show frameBytes < (arr.toNat + 8 * 512) % frameStep + 8
    unfold frameStep at hmod ⊢
    unfold frameBytes
    omega

theorem emits_programAndRun (h : 512 < caps.scratch) :
    Emits n (fun _ => True) (programAndRun willing caps) := by
  refine Emits.right (succeeds_alloc (C := fun _ _ => True)) fun _ => Triple.given fun _ => ?_
  refine Emits.left (emits_scratchpads h) fun _ => Keeps.bind onward (keeps_log _) fun _ => ?_
  refine Keeps.bind onward (keeps_act fun _ => ⟨rfl, rfl⟩) fun _ => ?_
  refine Keeps.bind onward keeps_alloc fun _ => Keeps.bind onward keeps_newRing fun _ => ?_
  refine Keeps.bind onward (keeps_act fun _ => ⟨rfl, rfl⟩) fun _ => ?_
  refine Keeps.bind onward keeps_alloc fun _ => Keeps.bind onward keeps_alloc fun _ => ?_
  refine Keeps.bind onward (keeps_log _) fun _ => Keeps.bind onward (keeps_log _) fun _ => ?_
  refine Keeps.bind onward (keeps_act fun _ => ⟨rfl, rfl⟩) fun _ => ?_
  exact Keeps.bind onward keeps_wait fun _ => keeps_resetPorts _

/-- A byte that the device did not send is read. -/
theorem emits_describeDevice (h : ∃ x ∈ (parseConfig received).2, n ≤ x) :
    Emits n (WithCmd fun dev => dev.isSome) (describeDevice willing caps received) := by
  have hcontrol : ∀ {reqType req : UInt8} {value index len : UInt16} {buf : UInt64},
      Succeeds (WithCmd fun dev => ∃ d, dev = some d ∧ True)
        (controlIn willing caps reqType req value index buf len)
          fun _ => WithCmd fun dev => ∃ d, dev = some d ∧ True :=
    succeeds_controlIn fun _ _ h => h
  have hsome : ∀ s, WithCmd (fun dev => dev.isSome) s →
      WithCmd (fun dev => ∃ d, dev = some d ∧ True) s := by
    rintro s ⟨hcmd, hdev⟩
    obtain ⟨d, hd⟩ := Option.isSome_iff_exists.mp hdev
    exact ⟨hcmd, d, hd, trivial⟩
  refine (Emits.right succeeds_alloc fun buf => Triple.given fun _ => ?_ :
    Emits n (WithCmd fun dev => ∃ d, dev = some d ∧ True) _).pre hsome
  refine Emits.right hcontrol fun _ => Emits.right succeeds_log fun _ => ?_
  refine Emits.right hcontrol fun _ => Emits.left (emits_log ?_) fun _ => ?_
  · obtain ⟨x, hx, hle⟩ := h
    exact ⟨.read x, List.mem_map_of_mem hx, hle⟩
  · refine Keeps.bind onward keeps_device fun _ => ?_
    exact Keeps.bind onward (keeps_act fun _ => ⟨rfl, rfl⟩) fun _ => keeps_controlIn

/-- A report that is longer than a frame. -/
theorem emits_armReportRead {d : Device} (hring : d.intRing.isSome) (hbuf : d.reportBuf ≠ 0)
    (hmps : frameBytes < d.intEpMps.toNat) :
    Emits n (WithCmd fun dev => dev = some d) (armReportRead caps) := by
  refine Emits.right ((succeeds_device (F := fun d' => d' = d)).pre fun s hs =>
    ⟨hs.1, d, hs.2, rfl⟩) fun d' => Triple.given fun hd' => ?_
  subst hd'
  refine Emits.right (Q := fun _ _ => True) (Triple.orGiveUp (fun _ _ _ _ => trivial) fun s h => ?_)
    fun ring => Emits.right (Q := fun _ _ => True)
      (Triple.require (fun _ _ _ => trivial) fun _ h => absurd hbuf h) fun _ => ?_
  · rw [h] at hring
    cases hring
  refine Emits.left ?_ fun _ => keeps_act fun _ => ⟨rfl, rfl⟩
  refine Emits.right (Q := fun _ _ => True) (Triple.act fun _ _ => trivial) fun _ => ?_
  refine Emits.left (emits_log ?_) fun _ => Keeps.pure onward _
  have hmax : max d'.intEpMps 8 = d'.intEpMps := by
    show (if d'.intEpMps ≤ 8 then 8 else d'.intEpMps) = d'.intEpMps
    refine if_neg fun hle => ?_
    have hle : d'.intEpMps.toNat ≤ 8 := hle
    unfold frameBytes at hmps
    omega
  have hlt := d'.intEpMps.toNat_lt
  unfold Trb.buffers
  rw [hmax, if_pos (Or.inl (Trb.trbType_normal _ _ _))]
  refine ⟨_, List.mem_cons_self, ?_⟩
  show frameBytes < _ + ((d'.intEpMps.toUInt32 &&& 0x1FFFF) &&& 0x1FFFF).toNat
  rw [UInt32.toNat_and, UInt32.toNat_and, UInt16.toNat_toUInt32,
    show (0x1FFFF : UInt32).toNat = 2 ^ 17 - 1 from rfl, Nat.and_two_pow_sub_one_eq_mod,
    Nat.and_two_pow_sub_one_eq_mod, Nat.mod_mod,
    Nat.mod_eq_of_lt (show d'.intEpMps.toNat < 2 ^ 17 by omega)]
  exact Nat.lt_of_lt_of_le hmps (Nat.le_add_left _ _)

theorem emits_configureInterruptEndpoint
    (h : ∃ e, (parseConfig received).1.intEp = some e ∧ e.1 ≠ 0 ∧ frameBytes < e.2.1.toNat) :
    Emits n (WithCmd fun dev => ∃ d, dev = some d ∧ Described received d)
      (configureInterruptEndpoint willing caps) := by
  obtain ⟨e, he, hnum, hmps⟩ := h
  refine Emits.right succeeds_device fun d => Triple.given fun hd => ?_
  obtain ⟨hepNum, hepMps⟩ := hd e he
  -- The packet size of the device stays while its rings and buffers come.
  have hlong : ∀ s, WithCmd (fun dev => dev = some d) s →
      WithCmd (fun dev => ∃ d, dev = some d ∧ d.intEpMps = e.2.1) s := fun s hs =>
    ⟨hs.1, d, hs.2, hepMps⟩
  refine Emits.right (Q := fun _ => WithCmd fun dev => ∃ d, dev = some d ∧ d.intEpMps = e.2.1)
    (Triple.require (fun s _ hs => hlong s hs) fun _ h => absurd (by rw [hepNum]; exact hnum) h)
    fun _ => ?_
  have hcontrol : ∀ {reqType req : UInt8} {value index len : UInt16} {buf : UInt64},
      Succeeds (WithCmd fun dev => ∃ d, dev = some d ∧ d.intEpMps = e.2.1)
        (controlIn willing caps reqType req value index buf len)
          fun _ => WithCmd fun dev => ∃ d, dev = some d ∧ d.intEpMps = e.2.1 :=
    succeeds_controlIn fun _ _ h => h
  refine Emits.right hcontrol fun _ => ?_
  refine Emits.right (Triple.attempt (Q := fun _ => WithCmd fun dev =>
    ∃ d, dev = some d ∧ d.intEpMps = e.2.1)
    (hcontrol.conseq (fun _ hs => hs) (fun _ _ hs => hs) fun _ h => h.elim)) fun _ => ?_
  refine Emits.right succeeds_alloc fun _ => Triple.given fun _ => ?_
  refine Emits.right succeeds_newRing fun ring => ?_
  refine Emits.right succeeds_log fun _ => Emits.right succeeds_log fun _ => ?_
  refine Emits.right succeeds_log fun _ => Emits.right succeeds_log fun _ => ?_
  refine Emits.right succeeds_pushCommand fun _ => Emits.right succeeds_awaitCommand fun _ => ?_
  refine Emits.right (Q := fun _ => WithCmd fun dev =>
      ∃ d, dev = some d ∧ d.intEpMps = e.2.1 ∧ d.intRing.isSome)
    (Triple.act fun s hs => ?_) fun _ => ?_
  · obtain ⟨hcmd, d, hd, hmps⟩ := hs
    exact ⟨hcmd, { d with intRing := some ring }, by rw [hd]; rfl, hmps, rfl⟩
  refine Emits.right succeeds_alloc fun buf => Triple.given fun hbuf => ?_
  refine Emits.right (Q := fun _ => WithCmd fun dev =>
      ∃ d, dev = some d ∧ d.intEpMps = e.2.1 ∧ d.intRing.isSome ∧ d.reportBuf ≠ 0)
    (Triple.act fun s hs => ?_) fun _ => ?_
  · obtain ⟨hcmd, d, hd, hmps, hring⟩ := hs
    exact ⟨hcmd, { d with reportBuf := buf }, by rw [hd]; rfl, hmps, hring, hbuf.2⟩
  · refine ⟨fun s a hs ha => ?_, fun s hs ha => ?_⟩
    · obtain ⟨hcmd, d, hd, hlen, hring, hbuf⟩ := hs
      exact (emits_armReportRead hring hbuf (by rw [hlen]; exact hmps)).done s a ⟨hcmd, hd⟩ ha
    · obtain ⟨hcmd, d, hd, hlen, hring, hbuf⟩ := hs
      exact (emits_armReportRead hring hbuf (by rw [hlen]; exact hmps)).stop s ⟨hcmd, hd⟩ ha

/-- In a willing world the driver leaves its frames if the controller or the device is not
modest. -/
theorem modest_of_willing (h : (broughtUp willing caps received).Stays received.length) :
    Modest caps received := by
  have hframes : ∀ f ∈ (broughtUp willing caps received).frames, Spaced f :=
    (keeps_bringUp Driver.fresh).2 fun f hf => (nomatch hf)
  have hnot : ¬ Emits received.length (fun _ => True) (bringUp willing caps received) := by
    intro hemits
    have hstrayed : Strayed received.length (broughtUp willing caps received) := by
      cases hend : (bringUp willing caps received Driver.fresh).1 with
      | none => exact hemits.stop _ trivial hend
      | some a => exact hemits.done _ a trivial hend
    obtain ⟨a, ha, hstrays⟩ := hstrayed
    exact not_fine_of_strays hstrays hframes (h a ha)
  have hreset : Succeeds (fun _ => True) (reset willing) fun _ _ => True :=
    succeeds_reset (C := fun _ _ => True)
  have hdescribe : ¬ ∃ x ∈ (parseConfig received).2, received.length ≤ x := by
    intro hread
    refine hnot (Emits.right hreset fun _ => Emits.right succeeds_programAndRun fun _ => ?_)
    refine Emits.right succeeds_enableSlot fun _ => Emits.right succeeds_addressDevice fun _ => ?_
    exact Emits.left (emits_describeDevice hread) fun _ => keeps_configureInterruptEndpoint
  have hread : ∀ x ∈ (parseConfig received).2, x < received.length := fun x hx =>
    Nat.lt_of_not_le fun hle => hdescribe ⟨x, hx, hle⟩
  exact {
    scratch := by
      refine Nat.le_of_not_lt fun hlt => hnot (Emits.right hreset fun _ => ?_)
      refine Emits.left (emits_programAndRun hlt) fun _ => ?_
      exact Keeps.bind onward keeps_enableSlot fun _ => Keeps.bind onward keeps_addressDevice
        fun _ =>
        Keeps.bind onward keeps_describeDevice fun _ => keeps_configureInterruptEndpoint
    report := by
      intro off hchain hle hne hint hnum
      refine Nat.le_of_not_lt fun hlt => ?_
      refine hnot (Emits.right hreset fun _ => Emits.right succeeds_programAndRun fun _ => ?_)
      refine Emits.right succeeds_enableSlot fun _ => Emits.right succeeds_addressDevice fun _ => ?_
      refine Emits.right succeeds_describeDevice fun _ => ?_
      exact emits_configureInterruptEndpoint ⟨_, (walk_found _ _ _).mpr
        (Or.inr ⟨rfl, off, hchain, hle, hne, hint, rfl⟩), hnum, hlt⟩
    header := hread 5 (by simp [parseConfig])
    chain := (walk_reads _ _ _).mp fun x hx => hread x (List.mem_append_right _ hx) }

/-- The configuration descriptor of a boot keyboard whose reports have `packet` bytes. -/
def keyboardConfig (packet : UInt16) : List UInt8 :=
  [9, 2, 34, 0, 1, 1, 0, 0xA0, 50, 9, 4, 0, 0, 1, 3, 1, 1, 0, 9, 0x21, 0, 0, 0, 1, 0x22, 63, 0,
    7, 5, 0x81, 3, packet.toUInt8, (packet >>> 8).toUInt8, 7]

end Usb

end Plinth
