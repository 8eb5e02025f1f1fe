import Plinth.Kernel

/-!
# `Plinth.Ipc`: send, receive, call and reply

The model of the `int 0x80` operations of `kernel/src/ipc.rs`. A sender and a receiver meet at
an endpoint, and the one that comes first blocks in its queue. The one that comes second does
the whole transfer: the message, the optional capability, and the wake.

A capability moves in two halves. It is revoked from the giver, and then it is installed in
the receiver. If the receiver has no room, it is installed in the giver again.
-/

set_option autoImplicit false

namespace Plinth

/-- What a kernel entry returns to its caller. A call that blocks returns later, through the
result registers of its slot. -/
inductive Ret where
  /-- `rax`. -/
  | value (rax : Nat)
  /-- `rax`, `rsi` if the call writes it, and `rdx`. -/
  | message (status : Nat) (payload : Option Nat) (landing : Nat)
  /-- The caller is blocked. -/
  | parked
  /-- The caller is gone. -/
  | exited
  deriving DecidableEq, Repr

namespace Kernel

/-- `endpoint_id_for`: the endpoint that `slot` of the current process names, if the
capability has the right and the endpoint is in use. -/
def endpointIdFor (s : Kernel) (core : Core) (slot : Nat) (right : Rights) :
    Option EndpointId :=
  match s.procs.current core with
  | none => none
  | some proc =>
    match proc.caps.lookup slot right with
    | .error _ => none
    | .ok cap =>
      match cap.object with
      | .endpoint id => if (s.ipc.endpoints id).inUse then some id else none
      | _ => none

/-- Give `cap` back to the process that runs on `core`, verbatim. The result of `install` is
dropped. -/
def restoreToCurrent (P : Procs) (core : Core) (cap : Capability) : Procs :=
  match P.onCurrent core fun t => t.reclaim cap with
  | some (_, P') => P'
  | none => P

/-- Give `cap` back to the process in slot `p` of the table, verbatim. The result of `install`
is dropped. -/
def restoreToBlocked (P : Procs) (p : ProcSlot) (cap : Capability) : Procs :=
  match P.installIntoBlocked p cap with
  | some (_, P') => P'
  | none => P

/-- The give half of a transfer by the process that runs on `core`. -/
def giveFromCurrent (s : Kernel) (core : Core) (capSlot : Nat) : Option (Capability × Kernel) :=
  match s.procs.current core with
  | none => none
  | some proc =>
    match revokeAndUnmapForLend s.mem proc capSlot with
    | none => none
    | some (cap, proc', mem) =>
      some (cap, { s with
        procs := s.procs.setCurrent core (some proc'), mem
        ipc := s.ipc.noteCapRemoved cap false })

/-- `revoke_from_blocked` and the accounting after it: the give half of a transfer by the
blocked process `p`. -/
def giveFromBlocked (s : Kernel) (p : ProcSlot) (capSlot : Nat) : Option (Capability × Kernel) :=
  match (s.procs.table p).process with
  | none => none
  | some proc =>
    match revokeAndUnmapForLend s.mem proc capSlot with
    | none => none
    | some (cap, proc', mem) =>
      some (cap, { s with
        procs := s.procs.setTableProc p (some proc'), mem
        ipc := s.ipc.noteCapRemoved cap false })

/-- `transfer_current_to_blocked`: move the capability at `capSlot` of the current process to
the blocked process `receiver`. The result is the landing slot, or `noCap`. -/
def transferCurrentToBlocked (s : Kernel) (core : Core) (receiver : ProcSlot) (capSlot : Nat) :
    Nat × Kernel :=
  match s.giveFromCurrent core capSlot with
  | none => (noCap, s)
  | some (cap, s) =>
    let lent := cap.lentTo (Origin.new (s.procs.currentSlot core) capSlot) receiver
    match s.procs.installIntoBlockedHome receiver lent cap.origin with
    | some (landing, procs) => (landing, { s with procs, ipc := s.ipc.noteCapAdded cap })
    | none =>
      (noCap, { s with
        procs := restoreToCurrent s.procs core cap, ipc := s.ipc.noteCapAdded cap })

/-- `transfer_blocked_to_current`: move the capability at `capSlot` of the blocked process
`sender` to the current process. -/
def transferBlockedToCurrent (s : Kernel) (core : Core) (sender : ProcSlot) (capSlot : Nat) :
    Nat × Kernel :=
  match s.giveFromBlocked sender capSlot with
  | none => (noCap, s)
  | some (cap, s) =>
    let dest := s.procs.currentSlot core
    let lent := cap.lentTo (Origin.new sender capSlot) dest
    match s.procs.onCurrent core fun t => t.installHome lent cap.origin dest with
    | some (landing, procs) => (landing, { s with procs, ipc := s.ipc.noteCapAdded cap })
    | none =>
      (noCap, { s with
        procs := restoreToBlocked s.procs sender cap, ipc := s.ipc.noteCapAdded cap })

/-- A one-shot reply capability for the caller in slot `caller`. -/
def replyCap (caller : ProcSlot) : Capability := ⟨.reply caller, 0, none⟩

/-- `mint_reply_cap_into_current`. -/
def mintReplyIntoCurrent (s : Kernel) (core : Core) (caller : ProcSlot) : Nat × Kernel :=
  match s.procs.onCurrent core fun t => t.reclaim (replyCap caller) with
  | some (landing, procs) => (landing, { s with procs })
  | none => (noCap, s)

/-- `mint_reply_cap_into_blocked`. -/
def mintReplyIntoBlocked (s : Kernel) (server caller : ProcSlot) : Nat × Kernel :=
  match s.procs.installIntoBlocked server (replyCap caller) with
  | some (landing, procs) => (landing, { s with procs })
  | none => (noCap, s)

/-- `ipc_send`: deliver `msg`, and the capability at `capSlot` if it is not `noCap`, to a
waiting receiver, or block as a sender. -/
def ipcSend (s : Kernel) (core : Core) (epSlot msg capSlot : Nat) : Ret × Kernel :=
  match s.endpointIdFor core epSlot rightSend with
  | none => (.value ipcErr, s)
  | some id =>
    match s.ipc.takeWaiting id false with
    | some (receiver, ipc) =>
      let s := { s with ipc }
      let r := if capSlot = noCap then (noCap, s)
        else s.transferCurrentToBlocked core receiver capSlot
      (.value ipcOk, { r.2 with procs := r.2.procs.wakeWith receiver ipcOk msg r.1 })
    | none =>
      if (s.ipc.endpoints id).receivers = 0 then (.value ipcPeerDied, s)
      else
        let cur := s.procs.currentSlot core
        (.parked, { s with
          procs := (s.procs.setPending cur msg capSlot false).blockCurrent core
          ipc := s.ipc.enqueueWaiter id cur true })

/-- `ipc_recv`: take the message of a waiting sender, or block as a receiver. A caller that
waits stays blocked, and the receiver gets a reply capability for it. -/
def ipcRecv (s : Kernel) (core : Core) (epSlot : Nat) : Ret × Kernel :=
  match s.endpointIdFor core epSlot rightRecv with
  | none => (.message ipcErr none noCap, s)
  | some id =>
    match s.ipc.takeWaiting id true with
    | some (sender, ipc) =>
      let s := { s with ipc }
      let slot := s.procs.table sender
      if slot.pendingCall then
        let r := s.mintReplyIntoCurrent core sender
        (.message ipcOk (some slot.pendingMsg) r.1, r.2)
      else
        let r := if slot.pendingCap = noCap then (noCap, s)
          else s.transferBlockedToCurrent core sender slot.pendingCap
        (.message ipcOk (some slot.pendingMsg) r.1,
          { r.2 with procs := r.2.procs.wakeWith sender ipcOk 0 noCap })
    | none =>
      let cur := s.procs.currentSlot core
      if (s.ipc.endpoints id).senders = 0 then
        let r := s.procs.takeReclaimLanding cur
        (.message ipcPeerDied none r.1, { s with procs := r.2 })
      else
        (.parked, { s with
          procs := s.procs.blockCurrent core, ipc := s.ipc.enqueueWaiter id cur false })

/-- `ipc_call`: hand the request to a waiting server, or queue as a sender, and block for the
reply in either case. -/
def ipcCall (s : Kernel) (core : Core) (epSlot req : Nat) : Ret × Kernel :=
  match s.endpointIdFor core epSlot rightSend with
  | none => (.value ipcErr, s)
  | some id =>
    let cur := s.procs.currentSlot core
    match s.ipc.takeWaiting id false with
    | some (server, ipc) =>
      let r := ({ s with ipc } : Kernel).mintReplyIntoBlocked server cur
      (.parked, { r.2 with
        procs := (r.2.procs.wakeWith server ipcOk req r.1).blockCurrent core })
    | none =>
      if (s.ipc.endpoints id).receivers = 0 then (.value ipcPeerDied, s)
      else
        (.parked, { s with
          procs := (s.procs.setPending cur req noCap true).blockCurrent core
          ipc := s.ipc.enqueueWaiter id cur true })

/-- `ipc_reply`: wake the caller that the reply capability at `replySlot` names, and consume
the capability. -/
def ipcReply (s : Kernel) (core : Core) (replySlot msg : Nat) : Ret × Kernel :=
  match s.procs.current core with
  | none => (.value ipcErr, s)
  | some proc =>
    match proc.caps.lookup replySlot 0 with
    | .error _ => (.value ipcErr, s)
    | .ok cap =>
      match cap.object with
      | .reply caller =>
        if s.procs.isBlocked caller then
          let P := s.procs.wakeWith caller ipcOk msg noCap
          let P' := match P.onCurrent core fun t => (t.revoke replySlot).toOption with
            | some (_, P') => P'
            | none => P
          (.value ipcOk, { s with procs := P' })
        else (.value ipcErr, s)
      | _ => (.value ipcErr, s)

end Kernel

end Plinth
