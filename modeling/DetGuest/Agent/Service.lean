import DetGuest.Agent.Regions
import DetGuest.Lib.Removal
import DetGuest.Wire.Messages

/-!
# The sockets of the region server

The server accepts the connections that are pending, and then answers what each connection
delivers, one connection after the other.  A round does the same as answering the datagrams out of
one queue; the connections that have ended are dropped behind it.
-/

namespace Agent

open Wire Wire.Regionipc

/-! ### Sockets -/

/-- Greatest number of connections. -/
def maxConns : Nat := 4

/-- What a `recv` finds: a datagram, whose reply can be sent or not, the end of the stream, or an
error. -/
inductive Inbound where
  | datagram (bytes : Bytes) (sendable : Bool)
  | eof
  | failed
  deriving DecidableEq, Repr

/-- A connection: its socket, the process at the other end, and what is there to be received. -/
structure Conn where
  fd : Nat
  pid : Int32
  inbox : List Inbound
  deriving DecidableEq, Repr

/-- A connection that is pending, whose peer may be unknown, or an error of the listener. -/
inductive Arrival where
  | conn (fd : Nat) (peer : Except Int32 Int32) (inbox : List Inbound)
  | failed (errno : Int32)
  deriving DecidableEq, Repr

/-- The other ends: what is pending at the listener, and the connections. -/
structure Peers where
  backlog : List Arrival
  conns : List Conn
  deriving DecidableEq, Repr

/-- The server, and the datagrams it has sent on each socket. -/
structure Desk (τ : Type) where
  ipc : RegionIpc τ
  sent : List (Nat × Bytes)

/-- The server with its sockets. -/
structure RegionSockets (τ : Type) where
  desk : Desk τ
  peers : Peers

/-- The connections among the other ends. -/
def connsPart : Exec.Part Peers (List Conn) where
  get s := s.conns
  set s conns := { s with conns }
  get_set _ _ := rfl
  set_get _ := rfl

variable {τ : Type}

/-- The server on its own. -/
def ipcPart (τ : Type) : Exec.Part (Desk τ) (RegionIpc τ) where
  get s := s.ipc
  set s ipc := { s with ipc }
  get_set _ _ := rfl
  set_get _ := rfl

/-- The server without its sockets. -/
def deskPart (τ : Type) : Exec.Part (RegionSockets τ) (Desk τ) where
  get s := s.desk
  set s desk := { s with desk }
  get_set _ _ := rfl
  set_get _ := rfl

/-- The sockets without the server. -/
def peersPart (τ : Type) : Exec.Part (RegionSockets τ) Peers where
  get s := s.peers
  set s peers := { s with peers }
  get_set _ _ := rfl
  set_get _ := rfl

namespace RegionSockets

/-! ### A round -/

/-- Accept the connections of a backlog.  Those that are too many are dropped, and an error ends
the round. -/
def acceptAll (conns : List Conn) : List Arrival → Peers × Res Int32 Unit
  | [] => (⟨[], conns⟩, .ok ())
  | .failed errno :: rest => (⟨rest, conns⟩, .err errno)
  | .conn fd peer inbox :: rest =>
      if conns.length ≥ maxConns then
        acceptAll conns rest
      else
        match peer with
        | .error errno => (⟨rest, conns⟩, .err errno)
        | .ok pid => acceptAll (conns ++ [⟨fd, pid, inbox⟩]) rest

/-- Accept the connections that are pending. -/
def acceptPending : Exec Peers Int32 Unit :=
  ⟨fun peers => acceptAll peers.conns peers.backlog⟩

/-- The datagram of a reply, which always fits. -/
def replyDatagram (reply : Reply) : Exec (Desk τ) Empty Bytes := do
  let (out, len) := (encodeReply reply).run (Bytes.zeros maxDatagram)
  let len ← Exec.expect (Exec.lift len)
  pure (out.take len)

/-- Answer a datagram of a connection, if the reply can be sent. -/
def answer (dbg : Bool) (f : Translator τ) (workloadPid : Option Int32) (fd : Nat) (pid : Int32)
    (bytes : Bytes) (sendable : Bool) : Exec (Desk τ) Empty Unit := do
  let reply ← Exec.focus (ipcPart τ) (RegionIpc.serve dbg f bytes pid workloadPid)
  let out ← replyDatagram reply
  if sendable then
    Exec.modify fun s => { s with sent := s.sent ++ [(fd, out)] }

/-- Answer what a connection delivers until nothing is there; says whether the connection has
ended. -/
def serveInbox (dbg : Bool) (f : Translator τ) (workloadPid : Option Int32) (fd : Nat)
    (pid : Int32) : List Inbound → Exec (Desk τ) Empty Bool
  | [] => pure false
  | .eof :: _ => pure true
  | .failed :: _ => pure true
  | .datagram bytes sendable :: rest =>
      -- a datagram without bytes cannot be told from the end of the stream
      if bytes = [] then
        pure true
      else do
        answer dbg f workloadPid fd pid bytes sendable
        if sendable then
          serveInbox dbg f workloadPid fd pid rest
        else
          pure true

/-- Answer one connection after the other; the indices of those that have ended come out. -/
def serveConns (dbg : Bool) (f : Translator τ) (workloadPid : Option Int32) (i : Nat) :
    List Conn → Exec (Desk τ) Empty (List Nat)
  | [] => pure []
  | c :: cs => do
      let ended ← serveInbox dbg f workloadPid c.fd c.pid c.inbox
      let closed ← serveConns dbg f workloadPid (i + 1) cs
      pure (if ended then i :: closed else closed)

/-- A connection whose inbox has been read to its end. -/
def drained (c : Conn) : Conn := { c with inbox := [] }

/-- A round of the server. -/
def service (dbg : Bool) (f : Translator τ) (workloadPid : Option Int32) :
    Exec (RegionSockets τ) Int32 Unit := do
  Exec.focus (peersPart τ) acceptPending
  let s ← Exec.get
  let closed ← Exec.focus (deskPart τ)
    (Exec.mapErr Empty.elim (serveConns dbg f workloadPid 0 s.peers.conns))
  Exec.focus (peersPart τ) (Exec.focus connsPart do
    Removal.removeAll closed
    Exec.modify (List.map drained))

/-! ### One queue -/

/-- A datagram with the connection it comes from. -/
structure Query where
  fd : Nat
  pid : Int32
  bytes : Bytes
  sendable : Bool
  deriving DecidableEq, Repr

/-- Answer a datagram out of a queue. -/
def answerQuery (dbg : Bool) (f : Translator τ) (workloadPid : Option Int32) (q : Query) :
    Exec (Desk τ) Empty Unit :=
  answer dbg f workloadPid q.fd q.pid q.bytes q.sendable

/-- The datagrams that a connection delivers before it ends. -/
def queries (fd : Nat) (pid : Int32) : List Inbound → List Query
  | .datagram bytes sendable :: rest =>
      if bytes = [] then
        []
      else
        ⟨fd, pid, bytes, sendable⟩ :: if sendable then queries fd pid rest else []
  | _ => []

/-- Whether a connection ends. -/
def ends : List Inbound → Bool
  | [] => false
  | .datagram bytes sendable :: rest => bytes = [] || !sendable || ends rest
  | _ => true

/-- The datagrams of all connections, one connection after the other. -/
def queue (conns : List Conn) : List Query :=
  conns.flatMap fun c => queries c.fd c.pid c.inbox

/-- The connections behind a round. -/
def settle (conns : List Conn) : List Conn :=
  (conns.filter fun c => !ends c.inbox).map drained

theorem queue_cons (c : Conn) (cs : List Conn) :
  queue (c :: cs) = queries c.fd c.pid c.inbox ++ queue cs
  := rfl

section Queue

variable {dbg : Bool} {f : Translator τ} {workloadPid : Option Int32}

/-- A connection is answered as the queue of its datagrams. -/
theorem serveInbox_eq (fd : Nat) (pid : Int32) (inbox : List Inbound) :
  serveInbox dbg f workloadPid fd pid inbox
    = (queries fd pid inbox).forM (answerQuery dbg f workloadPid) >>= fun _ => pure (ends inbox)
  := by
  induction inbox with
  | nil => rfl
  | cons x rest ih =>
      cases x with
      | eof => rfl
      | failed => rfl
      | datagram bytes sendable =>
          rw [serveInbox, queries, ends]
          by_cases hbytes : bytes = []
          · rw [if_pos hbytes, if_pos hbytes, decide_eq_true hbytes]
            rfl
          · rw [if_neg hbytes, if_neg hbytes, decide_eq_false hbytes]
            change _ = (answerQuery dbg f workloadPid ⟨fd, pid, bytes, sendable⟩
              >>= fun _ => _) >>= fun _ => _
            rw [Exec.bind_assoc]
            cases sendable with
            | false => rfl
            | true =>
                simp only [if_true]
                rw [ih]
                rfl

/-- The connections are answered as one queue, and the indices of those that end come out. -/
theorem serveConns_eq (i : Nat) (conns : List Conn) :
  serveConns dbg f workloadPid i conns
    = (queue conns).forM (answerQuery dbg f workloadPid)
        >>= fun _ => pure (Removal.indices (fun c => ends c.inbox) i conns)
  := by
  induction conns generalizing i with
  | nil => rfl
  | cons c cs ih =>
      rw [serveConns, serveInbox_eq, ih, queue_cons, Exec.forM_append, Removal.indices]
      simp only [Exec.bind_assoc, Exec.pure_bind]

end Queue

end RegionSockets

end Agent
