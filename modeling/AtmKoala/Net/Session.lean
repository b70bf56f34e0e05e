import AtmKoala.Lib.Run
import AtmKoala.Net.Loops
import AtmKoala.Net.Wire

/-!
The life of an established connection.

A connection is `Opened` by a successful `atm_tcp_connect` or `atm_tcp_accept`;
its out-of-order store is empty then. A `Session` is such a connection with the
bytes that successful receives have returned, and an `Op` is a call on it with
what the call meets outside. Sending and closing leave the receiving side alone
(`Untouched`).
-/

namespace AtmKoala.Net

open Lib

/-! ### Opening -/

/-- No entry of the out-of-order store is used. -/
def Conn.Unstored (c : Conn) : Prop := ∀ i, (c.ooo i).used = false

theorem connectSynAck_unstored (net : Net) (c : Conn) (p : Poll) (unstored : c.Unstored) :
    (connectSynAck net c p).Meets Conn.Unstored fun c _ _ => c.Unstored := by
  unfold connectSynAck
  split
  · exact unstored
  · exact unstored

theorem acceptAck_unstored (net : Net) (c : Conn) (p : Poll) (unstored : c.Unstored) :
    (acceptAck net c p).Meets Conn.Unstored fun c _ _ => c.Unstored := by
  unfold acceptAck
  split
  · exact unstored
  · exact unstored

theorem resolveTurn_unstored (net : Net) (c : Conn) (p : Poll) (unstored : c.Unstored) :
    (resolveTurn net c p).Meets Conn.Unstored fun c _ _ => c.Unstored := by
  simp only [resolveTurn]
  split
  · exact unstored
  · exact unstored

/-- A handshake does not touch the store. -/
theorem handshake_unstored {use : Net → Conn → Poll → Round}
    (kept : ∀ net c p, c.Unstored → (use net c p).Meets Conn.Unstored fun c _ _ => c.Unstored)
    {transmit : Net → UInt32 → Conn → Net × Bool} {limit : UInt32} {net : Net} {c : Conn}
    {tries : List Try} (unstored : c.Unstored) :
    (retry transmit Conn.fail Conn.fail limit (screened use) 3 net c tries).conn.Unstored := by
  apply retry_rule (P := Conn.Unstored)
  · exact fun net c p holds => screened_meets holds fun _ => kept _ c p holds
  · exact fun holds => holds
  · exact fun holds => holds
  · exact fun holds => holds
  · exact unstored

/-- Nor does any loop before it. -/
theorem waited_unstored {turn : Net → Conn → Poll → Round}
    (kept : ∀ net c p, c.Unstored → (turn net c p).Meets Conn.Unstored fun c _ _ => c.Unstored)
    {start limit : UInt32} {net : Net} {c : Conn} {polls : List Poll} {w : Waited}
    (ended : pollUntil start limit turn net c polls = w) (unstored : c.Unstored) :
    w.conn.Unstored := by
  have along : Along (fun _ _ => True) start limit turn net c polls :=
    Along.of_forall (fun _ _ => trivial) net c
  have waited := pollUntil_rule (fun net c p holds _ => kept net c p holds) unstored along
  rw [ended] at waited
  exact waited.at_end

/-- A connection that `atm_tcp_connect` was not refused at once has an empty
store. -/
theorem atmTcpConnect_unstored {net : Net} {c : Conn} {ip : Ip} {port : UInt16}
    {timeout : UInt32} {e : ConnectEnv} (allowed : ¬(port = 0 ∨ net.initialized = false)) :
    (atmTcpConnect net c ip port timeout e).conn.Unstored := by
  unfold atmTcpConnect
  rw [if_neg allowed]
  have fresh : (Conn.dialled ip port net.nextPort e.choose).Unstored := fun _ => rfl
  simp only
  split
  · exact handshake_unstored connectSynAck_unstored fresh
  · split
    · rename_i ended
      exact waited_unstored resolveTurn_unstored ended fresh
    · rename_i ended
      have waited := waited_unstored resolveTurn_unstored ended fresh
      split
      · exact handshake_unstored connectSynAck_unstored waited
      · exact waited

theorem acceptSyn_unstored (port : UInt16) (net : Net) (c : Conn) (p : Poll) :
    (acceptSyn port net c p).Meets (fun _ => True) fun c _ _ => c.Unstored := by
  unfold acceptSyn
  split
  · trivial
  · exact fun _ => rfl

/-- A connection that `atm_tcp_accept` returned has an empty store. -/
theorem atmTcpAccept_unstored {net : Net} {l out : Conn} {timeout : UInt32} {e : AcceptEnv}
    (accepted : (atmTcpAccept net l out timeout e).code = some 0) :
    (atmTcpAccept net l out timeout e).conn.Unstored := by
  unfold atmTcpAccept at *
  split at accepted
  · simp at accepted
  rename_i listening
  rw [if_neg listening]
  have along : Along (fun _ _ => True) e.start timeout (screened (acceptSyn l.localPort)) net out
      e.polls := Along.of_forall (fun _ _ => trivial) net out
  have waited := pollUntil_rule
    (fun net c p holds _ => screened_meets (p := p) holds fun _ =>
      acceptSyn_unstored l.localPort _ c p) trivial along
  split at accepted
  · cases accepted
  · simp at accepted
  · rename_i ended
    rw [ended] at waited
    exact handshake_unstored acceptAck_unstored waited

/-- An established connection just opened, by either side. -/
inductive Opened : Net → Conn → Prop where
  | connect {net : Net} {c : Conn} {ip : Ip} {port : UInt16} {timeout : UInt32} {e : ConnectEnv}
      (allowed : ¬(port = 0 ∨ net.initialized = false))
      (established : (atmTcpConnect net c ip port timeout e).conn.state = .established) :
      Opened (atmTcpConnect net c ip port timeout e).net
        (atmTcpConnect net c ip port timeout e).conn
  | accept {net : Net} {l out : Conn} {timeout : UInt32} {e : AcceptEnv}
      (accepted : (atmTcpAccept net l out timeout e).code = some 0)
      (established : (atmTcpAccept net l out timeout e).conn.state = .established) :
      Opened (atmTcpAccept net l out timeout e).net (atmTcpAccept net l out timeout e).conn

theorem Opened.unstored {net : Net} {c : Conn} (opened : Opened net c) : c.Unstored := by
  cases opened with
  | connect allowed _ => exact atmTcpConnect_unstored allowed
  | accept accepted _ => exact atmTcpAccept_unstored accepted

/-! ### What the receiving side does not notice -/

/-- The receiving side of a connection is as it was, and the connection is not
re-established. -/
structure Untouched (c c' : Conn) : Prop where
  localPort : c'.localPort = c.localPort
  remotePort : c'.remotePort = c.remotePort
  ack : c'.ack = c.ack
  ooo : c'.ooo = c.ooo
  state : c'.state = .established → c.state = .established

theorem Untouched.refl (c : Conn) : Untouched c c := ⟨rfl, rfl, rfl, rfl, id⟩

theorem Untouched.fail {c c' : Conn} (h : Untouched c c') : Untouched c c'.fail :=
  ⟨h.localPort, h.remotePort, h.ack, h.ooo, fun e => by cases e⟩

theorem tcpCongestionAck_untouched {c c' : Conn} (h : Untouched c c') (n : UInt16) :
    Untouched c (tcpCongestionAck c' n) := by
  unfold tcpCongestionAck
  split
  · exact ⟨h.localPort, h.remotePort, h.ack, h.ooo, h.state⟩
  · exact h

theorem sendAck_untouched {c₀ : Conn} (expected : UInt32) (n : UInt16) (net : Net) (c : Conn)
    (p : Poll) (h : Untouched c₀ c) :
    (sendAck expected n net c p).Meets (Untouched c₀) fun c _ _ => Untouched c₀ c := by
  have acked : Untouched c₀ { c with peerWindow := windowOf p.frame, seq := expected } :=
    ⟨h.localPort, h.remotePort, h.ack, h.ooo, h.state⟩
  unfold sendAck
  split
  · exact tcpCongestionAck_untouched acked n
  · exact h

/-- Sending does not touch the receiving side. -/
theorem atmTcpSend_untouched (net : Net) (c : Conn) (data : List UInt8) (e : SendEnv) :
    Untouched c (atmTcpSend net c data e).conn := by
  simp only [atmTcpSend]
  split
  · exact .refl c
  · split
    · exact .refl c
    · apply retry_rule (P := Untouched c)
      · exact fun net c p h => screened_meets h fun _ => sendAck_untouched _ _ _ c p h
      · exact fun h => ⟨h.localPort, h.remotePort, h.ack, h.ooo, h.state⟩
      · exact fun h => h
      · exact fun h => ⟨h.localPort, h.remotePort, h.ack, h.ooo, fun e => by cases e⟩
      · exact ⟨rfl, rfl, rfl, rfl, id⟩

/-- Nor does closing. -/
theorem atmTcpClose_untouched (net : Net) (c : Conn) (now : UInt32) :
    Untouched c (atmTcpClose net c now).2.1 := by
  unfold atmTcpClose
  split
  · split
    · exact (Untouched.refl c).fail
    · exact ⟨rfl, rfl, rfl, rfl, fun e => by cases e⟩
  · exact ⟨rfl, rfl, rfl, rfl, fun e => by cases e⟩

/-! ### Sessions -/

/-- A connection with the bytes that successful receives have returned. -/
structure Session where
  net : Net
  conn : Conn
  log : List UInt8

/-- A call on an open connection. -/
inductive Op where
  | recv (cap : UInt16) (timeout : UInt32) (e : RecvEnv)
  | send (data : List UInt8) (e : SendEnv)
  | close (now : UInt32)

/-- The buffer that a successful call returns. -/
def Call.returned (r : Call) : List UInt8 :=
  match r.code with
  | some k => if 0 < k then r.out else []
  | none => []

/-- Perform one call. A call that is still in its loop leaves the state it has
reached there. -/
def Session.perform (s : Session) : Op → Session
  | .recv cap timeout e =>
    let r := atmTcpRecv s.net s.conn cap timeout e
    ⟨r.net, r.conn, s.log ++ r.returned⟩
  | .send data e =>
    let r := atmTcpSend s.net s.conn data e
    ⟨r.net, r.conn, s.log⟩
  | .close now =>
    let r := atmTcpClose s.net s.conn now
    ⟨r.1, r.2.1, s.log⟩

/-- The calls of a session, one after the other. -/
abbrev Session.Runs (ok : Session → Op → Prop) : Session → List Op → Session → Prop :=
  Run (fun s op t => s.perform op = t) ok

/-! ### A concrete session -/

/-- A card with an address and a neighbour whose hardware address is known. -/
def demoNet : Net :=
  ⟨true, [2, 0, 0, 0, 0, 1], ⟨10, 0, 0, 1⟩, ⟨10, 0, 0, 2⟩, [2, 0, 0, 0, 0, 2], 0, true, [], 49152⟩

/-- A turn in which a segment arrives from port 80 of a host for local port 49152. -/
def demoPoll (src : Ip) (seq ack : UInt32) (flags : UInt8) (data : List UInt8) : Poll :=
  let frame := segmentFrame demoNet.mac demoNet.arpMac src demoNet.ip 80 49152 seq ack flags 1000
    data
  ⟨0, 0, 0, bufferOf frame, frame.length⟩

/-- `atm_tcp_connect` to port 80 of the neighbour, whose SYN-ACK carries the
sequence number `isn`. -/
def demoCall (isn : UInt32) : Call :=
  atmTcpConnect demoNet Conn.zero ⟨10, 0, 0, 2⟩ 80 100
    ⟨0, 0, 0, [], 0, [⟨0, 0, [demoPoll ⟨10, 0, 0, 2⟩ isn 0xC0000001 tcpSynAck []]⟩]⟩

/-- The established session that the call leaves behind. -/
def demoSession (isn : UInt32) : Session := ⟨(demoCall isn).net, (demoCall isn).conn, []⟩

/-- Receive into a large buffer, in a turn in which data arrives from the
neighbour. -/
def demoRecv (seq : UInt32) (data : List UInt8) : Op :=
  .recv 512 100 ⟨0, 0, [demoPoll ⟨10, 0, 0, 2⟩ seq 0xC0000001 tcpAck data]⟩

end AtmKoala.Net
