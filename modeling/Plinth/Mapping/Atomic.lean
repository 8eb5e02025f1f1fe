import Plinth.Mapping.Calls
import Plinth.Runs.Mappings

/-!
# `Plinth.Mapping.Atomic`: a mapping call happens as a whole or not at all

`Atomic` says what a reader expects of `frame_map`, `fb_map` and `bind_device`. A call that fails
leaves the translations and the records as they were and stores nothing. A call that succeeds maps
the pages of the object at its addresses and no others, adds its record, and stores its info record.
And no page table that the call takes or writes is memory of user code.

All but the last holds in every state (`Called.failed`, `Called.ok`). The last needs that no page of
a bound device stays mapped after the device is released: the allocator hands out its frames again.
`mapping_calls_atomic` is about the runs of `keepsMappings`, and `staleRun` shows a call that clears
a page which the process still maps.
-/

set_option autoImplicit false

namespace Plinth

open Transition

/-- A call that maps pages of an object. -/
inductive MapCall where
  | frameMap (slot va : Nat)
  | fbMap (slot va infoPtr : Nat)
  | bindDevice (slot va infoPtr : Nat)

/-- The pages of an object, mapped from `va` on. -/
def objectPages (ds : Devices) (va : Nat) : CapObject → List (Nat × Nat × PageFlags)
  | .frame addr => [(va, addr, userDataFlags)]
  | .framebuffer physBase _ height stride bpp _ =>
    fbPages va physBase ((height * stride * bpp + (frameSize - 1)) / frameSize)
  | .boundDevice dev =>
    match (ds.devices dev).bind VirtioBlk.bound with
    | some b => bindPages va b
    | none => []
  | _ => []

/-- The list `es'` is `es` with `x` in a place that was empty. -/
def OneMore {α : Type} (x : α) (es es' : List (Option α)) : Prop :=
  ∃ before after, es = before ++ none :: after ∧ es' = before ++ some x :: after

theorem oneMore_of_recordFirst {α : Type} {x : α} {es es' : List (Option α)}
    (h : recordFirst x es = some es') : OneMore x es es' := by
  induction es generalizing es' with
  | nil => cases h
  | cons e es ih =>
    cases e with
    | none =>
      unfold recordFirst at h
      rw [← Option.some.inj h]
      exact ⟨[], es, rfl, rfl⟩
    | some e =>
      obtain ⟨rest, hrest, rfl⟩ := Option.map_eq_some_iff.mp h
      obtain ⟨before, after, rfl, rfl⟩ := ih hrest
      exact ⟨some e :: before, after, rfl, rfl⟩

namespace MapCall

/-- The slot of the capability. -/
def slot : MapCall → Nat
  | frameMap slot _ => slot
  | fbMap slot _ _ => slot
  | bindDevice slot _ _ => slot

/-- The address of the first page. -/
def va : MapCall → Nat
  | frameMap _ va => va
  | fbMap _ va _ => va
  | bindDevice _ va _ => va

/-- The call. -/
def run (c : MapCall) (s : Kernel) (core : Core) : Nat × Kernel :=
  match c with
  | frameMap slot va => s.sysFrameMap core slot va
  | fbMap slot va infoPtr => s.sysFbMap core slot va infoPtr
  | bindDevice slot va infoPtr => s.sysBindDevice core slot va infoPtr

/-- The bytes that the call stores through its info pointer. -/
def stores (c : MapCall) (s : Kernel) (core : Core) : List (Nat × UInt8) :=
  match c with
  | frameMap .. => []
  | fbMap slot va infoPtr => (InfoCall.fbMap slot va infoPtr).stores s core
  | bindDevice slot va infoPtr => (InfoCall.bindDevice slot va infoPtr).stores s core

/-- The address `a` is one of the info record. -/
def InRecord (c : MapCall) (a : Nat) : Prop :=
  match c with
  | frameMap .. => False
  | fbMap _ _ infoPtr => infoPtr ≤ a ∧ a < infoPtr + 20
  | bindDevice _ _ infoPtr => infoPtr ≤ a ∧ a < infoPtr + 24

/-- The process `y` is `x` with the record of the call, which maps `pages` pages. Nothing records
the mapping of a device. -/
def Records (c : MapCall) (pages : Nat) (x y : Process) : Prop :=
  match c with
  | frameMap slot va => ∃ maps, OneMore (va, slot) x.maps maps ∧ y = { x with maps }
  | fbMap slot va _ => ∃ fbMaps, OneMore ⟨va, pages, slot⟩ x.fbMaps fbMaps ∧ y = { x with fbMaps }
  | bindDevice .. => y = x

/-- The pages that the call asks to be mapped, if its arguments pass. -/
def request (c : MapCall) (s : Kernel) (proc : Process) : List (Nat × Nat × PageFlags) :=
  match proc.caps.lookup c.slot rightMap with
  | .error _ => []
  | .ok cap =>
    match c, cap.object with
    | frameMap slot va, .frame _ =>
      if va % frameSize ≠ 0 ∨ ¬ (userMapBase ≤ va ∧ va < userMapEnd) ∨
          (recordFirst (va, slot) proc.maps).isNone = true ∨
            s.mem.isMapped proc.l4 va = true then []
      else objectPages s.devs va cap.object
    | fbMap slot va infoPtr, .framebuffer _ _ height stride bpp _ =>
      let pages := (height * stride * bpp + (frameSize - 1)) / frameSize
      if (recordFirst (⟨va, pages, slot⟩ : FbMap) proc.fbMaps).isNone = true ∨ pages = 0 ∨
          ¬ inMapWindow va (pages * frameSize) ∨ 2 ^ 64 ≤ infoPtr + 19 ∨
          ¬ s.mem.pagesAccessible proc.l4 infoPtr (pagesTouched infoPtr 20) then []
      else objectPages s.devs va cap.object
    | bindDevice _ va infoPtr, .boundDevice _ =>
      if ¬ inMapWindow va (6 * frameSize) ∨ 2 ^ 64 ≤ infoPtr + 23 ∨ infoPtr % 8 ≠ 0 ∨
          ¬ s.mem.userAccessible proc.l4 infoPtr ∨
          ¬ s.mem.userAccessible proc.l4 (infoPtr + 23) then []
      else objectPages s.devs va cap.object
    | _, _ => []

/-- The frames that the page-table code writes in the call. -/
def tableWrites (c : MapCall) (s : Kernel) (proc : Process) : List Nat :=
  mapPagesWrites proc.l4 (c.request s proc) [] s.mem

/-! ### The three calls as one -/

/-- The pages lie one after the other in the window, from `va` on. -/
structure Spans (va : Nat) (pages : List (Nat × Nat × PageFlags)) : Prop where
  aligned : va % frameSize = 0
  low : userMapBase ≤ va
  high : va + pages.length * frameSize ≤ userMapEnd
  each : ∀ e ∈ pages, ∃ i < pages.length, e.1 = va + i * frameSize

/-- An address outside the range is on none of the pages. -/
theorem Spans.outside {va a : Nat} {pages : List (Nat × Nat × PageFlags)} (h : Spans va pages)
    (ha : a < va ∨ va + pages.length * frameSize ≤ a) :
    ∀ e ∈ pages, a / frameSize ≠ e.1 / frameSize := by
  intro e he
  obtain ⟨i, hi, heq⟩ := h.each e he
  have haligned := h.aligned
  have hlast : (i + 1) * frameSize ≤ pages.length * frameSize := Nat.mul_le_mul_right _ hi
  rw [heq]
  unfold frameSize at *
  omega

theorem Spans.low_half {va : Nat} {pages : List (Nat × Nat × PageFlags)} (h : Spans va pages) :
    ∀ e ∈ pages, e.1 < 2 ^ 39 := by
  intro e he
  obtain ⟨i, hi, heq⟩ := h.each e he
  have hhigh := h.high
  have hlast : (i + 1) * frameSize ≤ pages.length * frameSize := Nat.mul_le_mul_right _ hi
  unfold frameSize userMapEnd at *
  omega

theorem inMapWindow_iff {va span : Nat} : inMapWindow va span = true ↔
    va % frameSize = 0 ∧ userMapBase ≤ va ∧ va + span < 2 ^ 64 ∧ va + span ≤ userMapEnd := by
  unfold inMapWindow
  simp only [Bool.and_eq_true, beq_iff_eq, decide_eq_true_eq, and_assoc]

theorem spans_fbPages {va physBase pages : Nat} (h : inMapWindow va (pages * frameSize) = true) :
    Spans va (fbPages va physBase pages) := by
  obtain ⟨haligned, hlow, -, hhigh⟩ := inMapWindow_iff.mp h
  have hlen : (fbPages va physBase pages).length = pages := by
    unfold fbPages
    rw [List.length_map, List.length_range]
  refine ⟨haligned, hlow, by rw [hlen]; exact hhigh, fun e he => ?_⟩
  rw [hlen]
  obtain ⟨i, hi, rfl⟩ := List.mem_map.mp he
  exact ⟨i, List.mem_range.mp hi, rfl⟩

theorem spans_bindPages {va : Nat} (b : Bound) (h : inMapWindow va (6 * frameSize) = true) :
    Spans va (bindPages va b) := by
  obtain ⟨haligned, hlow, -, hhigh⟩ := inMapWindow_iff.mp h
  refine ⟨haligned, hlow, hhigh, fun e he => ?_⟩
  unfold bindPages at he ⊢
  simp only [List.mem_cons, List.not_mem_nil, or_false] at he
  rcases he with rfl | rfl | rfl | rfl | rfl | rfl
  · exact ⟨0, (by decide : 0 < 6), by simp⟩
  · exact ⟨1, (by decide : 1 < 6), by simp⟩
  · exact ⟨2, (by decide : 2 < 6), rfl⟩
  · exact ⟨3, (by decide : 3 < 6), rfl⟩
  · exact ⟨4, (by decide : 4 < 6), rfl⟩
  · exact ⟨5, (by decide : 5 < 6), rfl⟩

theorem spans_frame {va addr : Nat} (haligned : va % frameSize = 0) (hlow : userMapBase ≤ va)
    (hhigh : va < userMapEnd) : Spans va [(va, addr, userDataFlags)] := by
  refine ⟨haligned, hlow, ?_, fun e he => ⟨0, by simp, ?_⟩⟩
  · rw [List.length_singleton]
    unfold frameSize userMapEnd at *
    omega
  · rw [List.mem_singleton.mp he]
    simp

/-- To map one page is to map a list of one page. -/
theorem mapPages_singleton (m : Mem) (l4 va phys : Nat) (flags : PageFlags) :
    mapPages l4 [(va, phys, flags)] [] m = m.mapUserPage l4 va phys flags := by
  unfold mapPages
  dsimp only
  rcases m.mapUserPage l4 va phys flags with ⟨ok, m'⟩
  cases ok with
  | true => rfl
  | false => rfl

variable {s t : Kernel} {core : Core} {proc : Process}

/-- The rewrite of the running process with itself. -/
theorem setCurrent_current (h : s.procs.current core = some proc) :
    s.procs.setCurrent core (some proc) = s.procs := by
  unfold Procs.setCurrent
  rw [← h, Function.update_eq_self]

/-- A call whose arguments pass: it maps the pages of an object, and on success the process gets
its record. -/
structure Called (c : MapCall) (s : Kernel) (core : Core) (proc x : Process) (cap : Capability) :
    Prop where
  lookup : proc.caps.lookup c.slot rightMap = .ok cap
  request : c.request s proc = objectPages s.devs c.va cap.object
  spans : Spans c.va (c.request s proc)
  records : c.Records (c.request s proc).length proc x
  caps : x.caps = proc.caps
  l4 : x.l4 = proc.l4
  run : c.run s core =
    if (mapPages proc.l4 (c.request s proc) [] s.mem).1 = true then
      (0, { s with
        mem := (mapPages proc.l4 (c.request s proc) [] s.mem).2
        procs := s.procs.setCurrent core (some x) })
    else (errCode, { s with mem := (mapPages proc.l4 (c.request s proc) [] s.mem).2 })

/-- A call whose arguments do not pass. -/
def Refused (c : MapCall) (s : Kernel) (core : Core) (proc : Process) : Prop :=
  c.request s proc = [] ∧ c.run s core = (errCode, s)

theorem frameMap_called (hcur : s.procs.current core = some proc) (slot va : Nat) :
    Refused (.frameMap slot va) s core proc ∨
      ∃ x cap, Called (.frameMap slot va) s core proc x cap := by
  unfold Refused
  cases hlookup : proc.caps.lookup slot rightMap with
  | error e =>
    left
    unfold request run Kernel.sysFrameMap
    rw [hcur]
    dsimp only [MapCall.slot]
    rw [hlookup]
    exact ⟨rfl, ite_self _⟩
  | ok cap =>
    obtain ⟨object, rights, origin⟩ := cap
    cases object with
    | frame addr =>
      by_cases hargs : va % frameSize ≠ 0 ∨ ¬ (userMapBase ≤ va ∧ va < userMapEnd)
      · left
        unfold request run Kernel.sysFrameMap
        dsimp only [MapCall.slot]
        rw [hlookup, if_pos hargs]
        refine ⟨if_pos ?_, rfl⟩
        exact hargs.imp_right Or.inl
      · cases hrec : recordFirst (va, slot) proc.maps with
        | none =>
          left
          unfold request run Kernel.sysFrameMap
          dsimp only [MapCall.slot]
          rw [hlookup, if_neg hargs, hcur]
          dsimp only
          rw [hlookup]
          dsimp only
          rw [hrec]
          exact ⟨if_pos (Or.inr (Or.inr (Or.inl rfl))), rfl⟩
        | some maps =>
          by_cases hmapped : s.mem.isMapped proc.l4 va = true
          · left
            unfold request run Kernel.sysFrameMap
            dsimp only [MapCall.slot]
            rw [hlookup, if_neg hargs, hcur]
            dsimp only
            rw [hlookup]
            dsimp only
            rw [hrec]
            exact ⟨if_pos (Or.inr (Or.inr (Or.inr hmapped))), if_pos hmapped⟩
          · right
            have hreq : (frameMap slot va).request s proc = [(va, addr, userDataFlags)] := by
              unfold request
              dsimp only [MapCall.slot]
              rw [hlookup]
              dsimp only
              rw [hrec]
              refine if_neg fun h => ?_
              rcases h with h | h | h | h
              · exact hargs (Or.inl h)
              · exact hargs (Or.inr h)
              · cases h
              · exact hmapped h
            push Not at hargs
            obtain ⟨haligned, hlow, hhigh⟩ := hargs
            refine ⟨{ proc with maps }, ⟨.frame addr, rights, origin⟩, hlookup, hreq, ?_, ?_, rfl,
              rfl, ?_⟩
            · rw [hreq]
              exact spans_frame haligned hlow hhigh
            · exact ⟨maps, oneMore_of_recordFirst hrec, rfl⟩
            · rw [hreq, mapPages_singleton]
              unfold run Kernel.sysFrameMap
              dsimp only
              rw [if_neg (by push Not; exact ⟨haligned, hlow, hhigh⟩), hcur]
              dsimp only
              rw [hlookup]
              dsimp only
              rw [hrec]
              dsimp only
              rw [if_neg hmapped]
              rcases s.mem.mapUserPage proc.l4 va addr userDataFlags with ⟨ok, mem⟩
              cases ok with
              | true => rfl
              | false => rfl
    | _ =>
      left
      unfold request run Kernel.sysFrameMap
      rw [hcur]
      dsimp only [MapCall.slot]
      rw [hlookup]
      exact ⟨rfl, ite_self _⟩

theorem fbMap_called (hcur : s.procs.current core = some proc) (slot va infoPtr : Nat) :
    Refused (.fbMap slot va infoPtr) s core proc ∨
      ∃ x cap, Called (.fbMap slot va infoPtr) s core proc x cap := by
  unfold Refused
  cases hlookup : proc.caps.lookup slot rightMap with
  | error e =>
    left
    unfold request run Kernel.sysFbMap
    rw [hcur]
    dsimp only [MapCall.slot]
    rw [hlookup]
    exact ⟨rfl, rfl⟩
  | ok cap =>
    obtain ⟨object, rights, origin⟩ := cap
    cases object with
    | framebuffer physBase width height stride bpp format =>
      generalize hpages : (height * stride * bpp + (frameSize - 1)) / frameSize = pages
      cases hrec : recordFirst (⟨va, pages, slot⟩ : FbMap) proc.fbMaps with
      | none =>
        left
        unfold request run Kernel.sysFbMap
        rw [hcur]
        dsimp only [MapCall.slot]
        rw [hlookup]
        dsimp only
        rw [hpages, hrec]
        exact ⟨if_pos (Or.inl rfl), rfl⟩
      | some fbMaps =>
        by_cases hargs : pages = 0 ∨ ¬ inMapWindow va (pages * frameSize) ∨ 2 ^ 64 ≤ infoPtr + 19 ∨
            ¬ s.mem.pagesAccessible proc.l4 infoPtr (pagesTouched infoPtr 20)
        · left
          unfold request run Kernel.sysFbMap
          rw [hcur]
          dsimp only [MapCall.slot]
          rw [hlookup]
          dsimp only
          rw [hpages, hrec]
          exact ⟨if_pos (Or.inr hargs), if_pos hargs⟩
        · right
          have hobj : objectPages s.devs va (.framebuffer physBase width height stride bpp format) =
              fbPages va physBase pages := congrArg (fbPages va physBase) hpages
          have hreq : (fbMap slot va infoPtr).request s proc = fbPages va physBase pages := by
            unfold request
            dsimp only [MapCall.slot]
            rw [hlookup]
            dsimp only
            rw [hpages, hrec, if_neg]
            · exact hobj
            · rintro (h | h)
              · cases h
              · exact hargs h
          have hwindow : inMapWindow va (pages * frameSize) = true := by
            by_contra hnot
            exact hargs (Or.inr (Or.inl hnot))
          refine ⟨{ proc with fbMaps },
            ⟨.framebuffer physBase width height stride bpp format, rights,
            origin⟩, hlookup, ?_, ?_, ?_, rfl, rfl, ?_⟩
          · exact hreq.trans hobj.symm
          · rw [hreq]
            exact spans_fbPages hwindow
          · rw [hreq]
            have hlen : (fbPages va physBase pages).length = pages := by
              unfold fbPages
              rw [List.length_map, List.length_range]
            rw [hlen]
            exact ⟨fbMaps, oneMore_of_recordFirst hrec, rfl⟩
          · rw [hreq]
            unfold run Kernel.sysFbMap
            rw [hcur]
            dsimp only
            rw [hlookup]
            dsimp only
            rw [hpages, hrec]
            dsimp only
            rw [if_neg hargs]
            rcases mapPages proc.l4 (fbPages va physBase pages) [] s.mem with ⟨ok, mem⟩
            cases ok with
            | true => rfl
            | false => rfl
    | _ =>
      left
      unfold request run Kernel.sysFbMap
      rw [hcur]
      dsimp only [MapCall.slot]
      rw [hlookup]
      exact ⟨rfl, rfl⟩

theorem bindDevice_called (hcur : s.procs.current core = some proc) (slot va infoPtr : Nat) :
    Refused (.bindDevice slot va infoPtr) s core proc ∨
      ∃ x cap, Called (.bindDevice slot va infoPtr) s core proc x cap := by
  unfold Refused
  cases hlookup : proc.caps.lookup slot rightMap with
  | error e =>
    left
    unfold request run Kernel.sysBindDevice
    rw [hcur]
    dsimp only [MapCall.slot]
    rw [hlookup]
    exact ⟨rfl, rfl⟩
  | ok cap =>
    obtain ⟨object, rights, origin⟩ := cap
    cases object with
    | boundDevice dev =>
      by_cases hargs : ¬ inMapWindow va (6 * frameSize) ∨ 2 ^ 64 ≤ infoPtr + 23 ∨
          infoPtr % 8 ≠ 0 ∨ ¬ s.mem.userAccessible proc.l4 infoPtr ∨
          ¬ s.mem.userAccessible proc.l4 (infoPtr + 23)
      · left
        unfold request run Kernel.sysBindDevice
        rw [hcur]
        dsimp only [MapCall.slot]
        rw [hlookup]
        exact ⟨if_pos hargs, if_pos hargs⟩
      · have hreq : (bindDevice slot va infoPtr).request s proc =
            objectPages s.devs va (.boundDevice dev) := by
          unfold request
          dsimp only [MapCall.slot]
          rw [hlookup]
          exact if_neg hargs
        cases hbound : (s.devs.devices dev).bind VirtioBlk.bound with
        | none =>
          left
          rw [hreq]
          unfold objectPages run Kernel.sysBindDevice
          rw [hcur]
          dsimp only
          rw [hlookup]
          dsimp only
          rw [if_neg hargs, hbound]
          exact ⟨rfl, rfl⟩
        | some b =>
          right
          have hpages : objectPages s.devs va (.boundDevice dev) = bindPages va b := by
            unfold objectPages
            dsimp only
            rw [hbound]
          have hwindow : inMapWindow va (6 * frameSize) = true := by
            by_contra hnot
            exact hargs (Or.inl hnot)
          refine ⟨proc, ⟨.boundDevice dev, rights, origin⟩, hlookup, hreq, ?_, rfl, rfl, rfl, ?_⟩
          · rw [hreq, hpages]
            exact spans_bindPages b hwindow
          · rw [hreq, hpages, setCurrent_current hcur]
            unfold run Kernel.sysBindDevice
            rw [hcur]
            dsimp only
            rw [hlookup]
            dsimp only
            rw [if_neg hargs, hbound]
            dsimp only
            rcases mapPages proc.l4 (bindPages va b) [] s.mem with ⟨ok, mem⟩
            cases ok with
            | true => rfl
            | false => rfl
    | _ =>
      left
      unfold request run Kernel.sysBindDevice
      rw [hcur]
      dsimp only [MapCall.slot]
      rw [hlookup]
      exact ⟨rfl, rfl⟩

/-- A call is refused, or it maps the pages of an object. -/
theorem called (hcur : s.procs.current core = some proc) (c : MapCall) :
    Refused c s core proc ∨ ∃ x cap, Called c s core proc x cap := by
  cases c with
  | frameMap slot va => exact frameMap_called hcur slot va
  | fbMap slot va infoPtr => exact fbMap_called hcur slot va infoPtr
  | bindDevice slot va infoPtr => exact bindDevice_called hcur slot va infoPtr

/-! ### What a call does to the translations and the records -/

/-- The call from `s` to `t` maps the object of `cap`, and changes nothing else that the process
sees. -/
structure Maps (c : MapCall) (s t : Kernel) (core : Core) (proc : Process) (cap : Capability) :
    Prop where
  /-- Each page names the corresponding page of the object. -/
  pages : ∀ e ∈ objectPages s.devs c.va cap.object,
    (t.mem.spaces proc.l4).leaf e.1 = some ⟨e.2.1, e.2.2⟩
  /-- The pages are those of `[va, va + span)`. -/
  spans : Spans c.va (objectPages s.devs c.va cap.object)
  /-- No other address of the process is affected. -/
  others : ∀ a, a < c.va ∨ c.va + (objectPages s.devs c.va cap.object).length * frameSize ≤ a →
    (t.mem.spaces proc.l4).leaf a = (s.mem.spaces proc.l4).leaf a
  /-- No other address space is affected. -/
  spaces : ∀ l4 a, l4 ≠ proc.l4 → (t.mem.spaces l4).leaf a = (s.mem.spaces l4).leaf a
  /-- The process has one record more. -/
  records : ∃ x, c.Records (objectPages s.devs c.va cap.object).length proc x ∧
    t.procs = s.procs.setCurrent core (some x)

/-- The state `t` has the processes and the translations of `s`. -/
structure Unmoved (s t : Kernel) : Prop where
  procs : t.procs = s.procs
  leaf : ∀ l4 a, (t.mem.spaces l4).leaf a = (s.mem.spaces l4).leaf a

variable {c : MapCall} {x : Process} {cap : Capability}

theorem Called.failed (h : Called c s core proc x cap) (hfail : (c.run s core).1 ≠ 0) :
    Unmoved s (c.run s core).2 := by
  have hrun := h.run
  by_cases hok : (mapPages proc.l4 (c.request s proc) [] s.mem).1 = true
  · rw [if_pos hok] at hrun
    rw [hrun] at hfail
    exact absurd rfl hfail
  · rw [if_neg hok] at hrun
    rw [hrun]
    exact ⟨rfl, mapPages_failed (eq_false_of_ne_true hok)⟩

theorem Called.ok (h : Called c s core proc x cap) (hok : (c.run s core).1 = 0) :
    Maps c s (c.run s core).2 core proc cap := by
  have hrun := h.run
  by_cases hmap : (mapPages proc.l4 (c.request s proc) [] s.mem).1 = true
  · rw [if_pos hmap] at hrun
    rw [hrun]
    have hspans := h.spans
    have hrecords := h.records
    rw [h.request] at hmap hspans hrecords
    refine ⟨?_, hspans, fun a ha => ?_, fun l4 a hne => ?_, x, hrecords, rfl⟩
    · rw [h.request]
      exact mapPages_leaf hmap
    · rw [h.request]
      exact mapPages_outside hmap (hspans.outside ha)
    · rw [h.request]
      dsimp only
      rw [mapPages_other _ [] s.mem hne]
  · rw [if_neg hmap] at hrun
    rw [hrun] at hok
    exact absurd hok InfoCall.errCode_ne_zero

/-- What a call stores through its info pointer. -/
theorem stores_ok (hcur : s.procs.current core = some proc) (hok : (c.run s core).1 = 0) (a : Nat) :
    (∃ b, (a, b) ∈ c.stores s core) ↔ c.InRecord a := by
  cases c with
  | frameMap slot va => exact ⟨fun ⟨_, h⟩ => (nomatch h), False.elim⟩
  | fbMap slot va infoPtr =>
    exact (InfoCall.succeeds (c := .fbMap slot va infoPtr) hcur hok).stores a
  | bindDevice slot va infoPtr =>
    exact (InfoCall.succeeds (c := .bindDevice slot va infoPtr) hcur hok).stores a

theorem stores_failed (hcur : s.procs.current core = some proc) (hfail : (c.run s core).1 ≠ 0) :
    c.stores s core = [] := by
  cases c with
  | frameMap slot va => rfl
  | fbMap slot va infoPtr =>
    unfold stores InfoCall.stores
    rw [hcur]
    exact if_neg hfail
  | bindDevice slot va infoPtr =>
    unfold stores InfoCall.stores
    rw [hcur]
    exact if_neg hfail

/-- The page-table code writes tables of the address space. -/
theorem tableWrites_mem (hcur : s.procs.current core = some proc) {a : Nat}
    (ha : a ∈ c.tableWrites s proc) : a ∈ (c.run s core).2.mem.spaceFrames proc.l4 := by
  unfold tableWrites at ha
  rcases called hcur c with ⟨hnone, -⟩ | ⟨x, cap, h⟩
  · rw [hnone] at ha
    cases ha
  · have hmem := mapPagesWrites_mem _ h.spans.low_half [] nofun s.mem ha
    have hrun := h.run
    rw [hrun]
    split
    · exact hmem
    · exact hmem

end MapCall

namespace Kernel

variable {s t : Kernel} {core : Core} {proc x : Process} {p : ProcSlot} {a : Nat}

/-! ### User memory -/

/-- The page at `phys` is one of a framebuffer that the process holds, or the doorbell of a bound
device that it holds. -/
def DevicePage (s : Kernel) (proc : Process) (phys : Nat) : Prop :=
  (∃ k cap physBase width height stride bpp format, proc.caps.slots k = some cap ∧
    cap.object = .framebuffer physBase width height stride bpp format ∧
    physBase ≤ phys ∧ phys < physBase + height * stride * bpp) ∨
  ∃ k cap dev b, proc.caps.slots k = some cap ∧ cap.object = .boundDevice dev ∧
    (s.devs.devices dev).bind VirtioBlk.bound = some b ∧ phys = b.notifyPagePhys

/-- The frame at `a` is memory of user code: it is an image or stack page of a process, or a
process maps it in the window and it is no page of a device. -/
def UserFrame (s : Kernel) (a : Nat) : Prop :=
  (∃ p, a ∈ (s.procs.table p).bootFrames.map Prod.snd) ∨
  ∃ p proc va l, s.procs.proc p = some proc ∧ (s.mem.spaces proc.l4).leaf va = some l ∧
    ¬ outsideMapWindow va ∧ l.phys = a ∧ ¬ s.DevicePage proc a

theorem bound_frames_mem {dev : DevId} {b : Bound}
    (h : (s.devs.devices dev).bind VirtioBlk.bound = some b) (ha : a ∈ b.frames) :
    a ∈ s.devs.allFrames := by
  obtain ⟨d, hd, hb⟩ := Option.bind_eq_some_iff.mp h
  refine List.mem_append_left _ (List.mem_flatMap.mpr ⟨dev, List.mem_finRange dev, ?_⟩)
  rw [hd, Option.map_some, Option.getD_some]
  unfold VirtioBlk.frames
  rw [hb]
  exact ha

/-- In the runs of `keepsMappings`, no page table of a process is memory of user code. -/
theorem tables_apart (hs : Reachable system keepsMappings s) (hp : s.procs.proc p = some proc)
    (ha : a ∈ s.mem.spaceFrames proc.l4) : ¬ s.UserFrame a := by
  obtain ⟨howned, hwarranted⟩ := warranted_of_reachable hs
  have hsum := owners_le howned a
  have hone := s.mem.fa.marked_le_one a
  have htable : (s.mem.spaceFrames proc.l4).count a ≤ liveSpaceCount s.mem s.procs.proc a :=
    Tally.le_tally (fun proc => (s.mem.spaceFrames proc.l4).count a) hp
  have hpos := List.count_pos_iff.mpr ha
  rintro (⟨q, hboot⟩ | ⟨q, y, va, l, hq, hl, hin, rfl, hdevice⟩)
  · have hcount : 0 < ((s.ledger.boot q).map Prod.snd).count a := List.count_pos_iff.mpr hboot
    have hle : ((s.ledger.boot q).map Prod.snd).count a ≤ bootCount s.ledger.boot a :=
      Finset.single_le_sum (f := fun q => ((s.ledger.boot q).map Prod.snd).count a)
        (fun _ _ => Nat.zero_le _) (Finset.mem_univ q)
    omega
  · -- The mapping has a capability, and the frame of the capability has one owner.
    rcases (hwarranted q y va l hq hl).resolve_left hin with hrec | ⟨dev, b, hret, hb, hphys⟩
    · rcases hrec with ⟨va', k, cap, -, -, hk, hobj⟩ | ⟨f, k, cap, -, -, hk, hshows⟩
      · have hle := le_liveTotal (objWeight (.frame l.phys)) hq hk
        rw [objWeight, if_pos hobj] at hle
        change 1 ≤ s.frameCaps l.phys at hle
        omega
      · obtain ⟨physBase, width, height, stride, bpp, format, i, hobj, -, -, hphys, hspan⟩ := hshows
        refine hdevice (Or.inl ⟨k, cap, physBase, width, height, stride, bpp, format, hk, hobj, ?_⟩)
        omega
    · obtain ⟨k, rights, z, cap, hz, hk, hobj, -⟩ := hret.holds rfl
      obtain rfl : y = z := Option.some.inj (hq.symm.trans hz)
      rcases List.mem_cons.mp hphys with hnotify | hframe
      · exact hdevice (Or.inr ⟨k, cap, dev, b, hk, hobj, hb, hnotify⟩)
      · have hcount := List.count_pos_iff.mpr (bound_frames_mem hb hframe)
        omega

/-- The memory of user code is that of user code after a step that keeps the pages and the
capabilities. -/
theorem UserFrame.keep (htable : t.procs.table = s.procs.table) (hdevs : t.devs = s.devs)
    (hproc : ∀ p proc, s.procs.proc p = some proc → ∃ x, t.procs.proc p = some x ∧
      x.caps = proc.caps ∧ x.l4 = proc.l4)
    (hleaf : ∀ l4 va l, (s.mem.spaces l4).leaf va = some l → (t.mem.spaces l4).leaf va = some l)
    (h : s.UserFrame a) : t.UserFrame a := by
  rcases h with ⟨p, hboot⟩ | ⟨p, proc, va, l, hp, hl, hin, hphys, hdevice⟩
  · exact Or.inl ⟨p, by rw [htable]; exact hboot⟩
  · obtain ⟨x, hx, hcaps, hl4⟩ := hproc p proc hp
    refine Or.inr ⟨p, x, va, l, hx, ?_, hin, hphys, fun hnew => hdevice ?_⟩
    · rw [hl4]
      exact hleaf _ _ _ hl
    · unfold DevicePage at hnew ⊢
      rw [hcaps, hdevs] at hnew
      exact hnew

end Kernel

namespace MapCall

variable {s t : Kernel} {core : Core} {proc : Process} {c : MapCall}

/-- The kernel entry of the call. -/
def label (core : Core) : MapCall → Label
  | frameMap slot va => .frameMap core slot va
  | fbMap slot va infoPtr => .fbMap core slot va infoPtr
  | bindDevice slot va infoPtr => .bindDevice core slot va infoPtr

theorem step_label (hcur : s.procs.current core = some proc) (c : MapCall) :
    s.step (c.label core) = some (c.run s core).2 := by
  have hon : ∀ t : Kernel, s.onCore core t = some t := by
    intro t
    unfold Kernel.onCore
    rw [hcur]
    rfl
  cases c with
  | frameMap slot va => exact hon _
  | fbMap slot va infoPtr => exact hon _
  | bindDevice slot va infoPtr => exact hon _

/-- A mapping call takes nothing from its holder. -/
theorem keepsMappings_label (s : Kernel) (core : Core) (c : MapCall) :
    Kernel.keepsMappings s (c.label core) := by
  cases c with
  | frameMap slot va => rfl
  | fbMap slot va infoPtr => rfl
  | bindDevice slot va infoPtr => rfl

/-- The memory of user code before the call is that of user code afterwards. -/
theorem userFrame_kept (hplaced : Placed s.procs) (hcur : s.procs.current core = some proc)
    (c : MapCall) {a : Nat} (h : s.UserFrame a) : (c.run s core).2.UserFrame a := by
  rcases called hcur c with ⟨-, hrun⟩ | ⟨x, cap, hcall⟩
  · rw [hrun]
    exact h
  · have hrun := hcall.run
    by_cases hok : (mapPages proc.l4 (c.request s proc) [] s.mem).1 = true
    · rw [if_pos hok] at hrun
      rw [hrun]
      refine Kernel.UserFrame.keep (s := s) rfl rfl (fun p y hy => ?_) (fun l4 va l hl => ?_) h
      · dsimp only
        rw [(hplaced.setCurrent hcur x).2]
        by_cases hp : p = s.procs.currentSlot core
        · subst hp
          rw [hplaced.proc_of_current hcur] at hy
          obtain rfl := Option.some.inj hy
          exact ⟨x, Function.update_self .., hcall.caps, hcall.l4⟩
        · exact ⟨y, by rw [Function.update_of_ne hp]; exact hy, rfl, rfl⟩
      · dsimp only
        by_cases hl4 : l4 = proc.l4
        · subst hl4
          exact mapPages_keeps hok hl
        · rw [mapPages_other _ [] s.mem hl4]
          exact hl
    · rw [if_neg hok] at hrun
      rw [hrun]
      refine Kernel.UserFrame.keep (s := s) rfl rfl (fun p y hy => ⟨y, hy, rfl, rfl⟩)
        (fun l4 va l hl => ?_) h
      dsimp only
      rw [mapPages_failed (eq_false_of_ne_true hok)]
      exact hl

/-! ### The main result -/

/-- The call happens as a whole or not at all. -/
structure Atomic (c : MapCall) (s : Kernel) (core : Core) (proc : Process) : Prop where
  failed : (c.run s core).1 ≠ 0 → Unmoved s (c.run s core).2 ∧ c.stores s core = []
  ok : (c.run s core).1 = 0 → ∃ cap, proc.caps.lookup c.slot rightMap = .ok cap ∧
    Maps c s (c.run s core).2 core proc cap ∧ ∀ a, (∃ b, (a, b) ∈ c.stores s core) ↔ c.InRecord a
  /-- The page-table code writes no memory of user code, old or new. -/
  memory : ∀ a ∈ c.tableWrites s proc, ¬ s.UserFrame a ∧ ¬ (c.run s core).2.UserFrame a

/-- In every run in which no process parts with a bound device that it maps, the mapping calls
happen as a whole or not at all. -/
theorem mapping_calls_atomic (hs : Reachable Kernel.system Kernel.keepsMappings s)
    (hcur : s.procs.current core = some proc) (c : MapCall) : c.Atomic s core proc := by
  have hplaced := (Kernel.good_of_reachable hs.forget).rep.procs.placed
  refine ⟨fun hfail => ⟨?_, stores_failed hcur hfail⟩, fun hok => ?_, fun a ha => ?_⟩
  · rcases called hcur c with ⟨-, hrun⟩ | ⟨x, cap, h⟩
    · rw [hrun]
      exact ⟨rfl, fun _ _ => rfl⟩
    · exact h.failed hfail
  · rcases called hcur c with ⟨-, hrun⟩ | ⟨x, cap, h⟩
    · rw [hrun] at hok
      exact absurd hok InfoCall.errCode_ne_zero
    · exact ⟨cap, h.lookup, h.ok hok, stores_ok hcur hok⟩
  · -- The tables are those of the process after the call, which is one more step of the run.
    have hnext := hs.next (keepsMappings_label s core c) (step_label hcur c)
    have htable := tableWrites_mem hcur ha
    have hafter : ¬ (c.run s core).2.UserFrame a := by
      rcases called hcur c with ⟨-, hrun⟩ | ⟨x, cap, h⟩
      · rw [hrun] at hnext htable ⊢
        exact Kernel.tables_apart hnext (hplaced.proc_of_current hcur) htable
      · have hrun := h.run
        by_cases hmap : (mapPages proc.l4 (c.request s proc) [] s.mem).1 = true
        · rw [if_pos hmap] at hrun
          rw [hrun] at hnext htable ⊢
          have hx :
            (s.procs.setCurrent core (some x)).proc (s.procs.currentSlot core) = some x := by
            rw [(hplaced.setCurrent hcur x).2, Function.update_self]
          refine Kernel.tables_apart hnext hx ?_
          rw [h.l4]
          exact htable
        · rw [if_neg hmap] at hrun
          rw [hrun] at hnext htable ⊢
          exact Kernel.tables_apart hnext (hplaced.proc_of_current hcur) htable
    exact ⟨fun hbefore => hafter (userFrame_kept hplaced hcur c hbefore), hafter⟩

/-- A process with a frame and a bound device. -/
def deviceRun : List Label :=
  [.run 0 [some Kernel.codeImage] [some ⟨.boundDevice 1, rightMap, none⟩], .frameAlloc 0]

/-- It maps the device. -/
theorem mapping_calls_atomic_deviceRun :
    ∃ proc, (Kernel.smallMachine.runFrom deviceRun).procs.current 0 = some proc ∧
      ((bindDevice 1 userMapBase (userStackTop - frameSize)).run
        (Kernel.smallMachine.runFrom deviceRun) 0).1 = 0 ∧
      (bindDevice 1 userMapBase (userStackTop - frameSize)).Atomic
        (Kernel.smallMachine.runFrom deviceRun) 0 proc := by
  have hruns : ((Kernel.smallMachine.runFrom deviceRun).procs.current 0).isSome = true := by
    decide +kernel
  obtain ⟨proc, hproc⟩ := Option.isSome_iff_exists.mp hruns
  exact ⟨proc, hproc, by decide +kernel,
    mapping_calls_atomic (Kernel.reachable_small_of (by decide +kernel)) hproc _⟩

/-- It maps the device, and then it releases the device. -/
def staleRun : List Label :=
  deviceRun ++ [.bindDevice 0 1 userMapBase (userStackTop - frameSize), .capRelease 0 1]

/-- Then it maps the frame, two megabytes further on. The missing page table gets the frame of the
descriptor ring, which the process still maps: `map_user_page` clears it. -/
theorem staleRun_clears : ∃ s proc, Reachable Kernel.system always s ∧
    s.procs.current 0 = some proc ∧
    3 * frameSize ∈ (frameMap 2 (userMapBase + 2 ^ 21)).tableWrites s proc ∧
    ((s.mem.spaces proc.l4).leaf (userMapBase + frameSize)).map Leaf.phys = some (3 * frameSize) ∧
    ¬ (frameMap 2 (userMapBase + 2 ^ 21)).Atomic s 0 proc := by
  have hplaced := (Kernel.good_of_reachable (Kernel.reachable_small staleRun)).rep.procs.placed
  have hfacts : ((Kernel.smallMachine.runFrom staleRun).procs.current 0).map (fun proc =>
      decide (3 * frameSize ∈ (frameMap 2 (userMapBase + 2 ^ 21)).tableWrites
        (Kernel.smallMachine.runFrom staleRun) proc) &&
      (List.finRange maxCaps).all (fun k => (proc.caps.slots k).all fun cap =>
        cap.object == .cpuTime initialCpuBudget || cap.object == .frame (74 * frameSize)) &&
      (((Kernel.smallMachine.runFrom staleRun).mem.spaces proc.l4).leaf
        (userMapBase + frameSize)).map Leaf.phys == some (3 * frameSize)) = some true := by
    decide +kernel
  obtain ⟨proc, hproc, hall⟩ := Option.map_eq_some_iff.mp hfacts
  rw [Bool.and_eq_true, Bool.and_eq_true, decide_eq_true_eq, beq_iff_eq] at hall
  obtain ⟨⟨hwrites, hcaps⟩, hleaf⟩ := hall
  refine ⟨_, proc, Kernel.reachable_small staleRun, hproc, hwrites, hleaf, fun h => ?_⟩
  obtain ⟨l, hl, hphys⟩ := Option.map_eq_some_iff.mp hleaf
  refine (h.memory _ hwrites).1
    (Or.inr ⟨_, proc, _, l, hplaced.proc_of_current hproc, hl, ?_, hphys,
    ?_⟩)
  · unfold outsideMapWindow userMapBase userMapEnd frameSize
    omega
  · -- The process holds neither a framebuffer nor a bound device any more.
    have hkind : ∀ k cap, proc.caps.slots k = some cap →
        cap.object = .cpuTime initialCpuBudget ∨ cap.object = .frame (74 * frameSize) := by
      intro k cap hk
      have hcap := List.all_eq_true.mp hcaps k (List.mem_finRange k)
      rw [hk, Option.all_some, Bool.or_eq_true, beq_iff_eq, beq_iff_eq] at hcap
      exact hcap
    rintro (⟨k, cap, physBase, width, height, stride, bpp, format, hk, hobj, -⟩ |
      ⟨k, cap, dev, b, hk, hobj, -⟩)
    · rcases hkind k cap hk with h | h
      · rw [hobj] at h
        cases h
      · rw [hobj] at h
        cases h
    · rcases hkind k cap hk with h | h
      · rw [hobj] at h
        cases h
      · rw [hobj] at h
        cases h

end MapCall

end Plinth
