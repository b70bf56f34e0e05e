import Mathlib.Data.List.FinRange
import AtmKoala.Net.Frame

/-!
The TCP client and listener (`net_tcp.c`) over the card and neighbour cache of
`net.c`.

- `Net` is the part of the driver state that TCP depends on, with the frames
  handed to the card; `Conn` is `atm_tcp_conn_t`.
- A `Poll` is one turn of a receive loop: the clock at its loop test, at the
  reception and at the reply, and what the card had to offer. `pollUntil` is the
  `while` loop that all receive loops share; a list of polls that runs out means
  that the loop is still waiting.
- A receive loop is `pollUntil` with its own treatment of an accepted frame:
  `acceptSyn`, `acceptAck`, `connectSynAck`, `sendAck` and `recvSegment`.
-/

namespace AtmKoala.Net

open Lib

/-! ### The card and the neighbour cache -/

/-- A frame handed to the card, by what is filled in. -/
inductive Sent where
  | arpRequest (target : Ip)
  | arpReply (mac : List UInt8) (target : Ip)
  | segment (mac : List UInt8) (dst : Ip) (srcPort dstPort : UInt16) (seq ack : UInt32)
      (flags : UInt8) (window : UInt16) (data : List UInt8)
deriving DecidableEq

/-- `net_state_t` as far as TCP depends on it, with the frames sent (latest
last) and the static `next_port` of `atm_tcp_connect`. -/
structure Net where
  initialized : Bool
  mac : List UInt8
  ip : Ip
  arpIp : Ip
  arpMac : List UInt8
  arpUpdated : UInt32
  arpValid : Bool
  sent : List Sent
  nextPort : UInt16

/-- `net_send`: a card that is set up takes every frame of this size. -/
def netSend (net : Net) (f : Sent) : Net × Bool :=
  if net.initialized then ({ net with sent := net.sent ++ [f] }, true) else (net, false)

/-- `net_arp_request`. -/
def netArpRequest (net : Net) (target : Ip) : Net := (netSend net (.arpRequest target)).1

/-- `net_arp_observe`: a request for the local address and a reply to the local
card both enter the single cache entry; a request is answered. -/
def netArpObserve (net : Net) (now : UInt32) (frame : Nat → UInt8) (len : Int) : Net :=
  if len < 42 then net
  else if ethertype frame ≠ 0x0806 ∨ netBswap16 (u16At frame 14) ≠ 1 ∨
      netBswap16 (u16At frame 16) ≠ 0x0800 ∨ frame 18 ≠ 6 ∨ frame 19 ≠ 4 then net
  else
    let op := netBswap16 (u16At frame 20)
    if ipAt frame 38 ≠ net.ip then net
    else if op = 2 ∧ bytes frame 32 6 ≠ net.mac then net
    else if op ≠ 1 ∧ op ≠ 2 then net
    else
      let net := { net with arpIp := ipAt frame 28, arpMac := bytes frame 22 6,
                            arpUpdated := now, arpValid := true }
      if op = 1 then (netSend net (.arpReply (bytes frame 22 6) (ipAt frame 28))).1 else net

/-- `net_arp_lookup`. -/
def netArpLookup (net : Net) (now : UInt32) (ip : Ip) : Option (List UInt8) :=
  if net.arpValid = false ∨ now - net.arpUpdated > 6000 ∨ net.arpIp ≠ ip then none
  else some net.arpMac

/-! ### Polling -/

/-- One turn of a receive loop. -/
structure Poll where
  /-- the clock at the loop test -/
  test : UInt32
  /-- the clock when the frame is received -/
  heard : UInt32
  /-- the clock at the neighbour lookup that follows the frame -/
  reply : UInt32
  /-- the receive buffer -/
  frame : Nat → UInt8
  /-- the length of the frame that the card has; 0 for none -/
  n : Int

/-- `net_recv`: the length of the frame, of which ARP has taken notice. -/
def netRecv (net : Net) (p : Poll) : Net × Int :=
  if net.initialized = false ∨ p.n ≤ 0 then (net, 0)
  else (netArpObserve net p.heard p.frame p.n, p.n)

/-! ### Connections -/

/-- `atm_tcp_state_t`. -/
inductive TcpState where
  | closed | listen | synSent | synReceived | established | finWait | error
deriving DecidableEq

/-- `ATM_TCP_OOO_MAX`. -/
abbrev oooMax : Nat := 2

/-- `ATM_TCP_MSS`. -/
@[simp] def tcpMss : Nat := 512

/-- One entry of the out-of-order store; `data` holds its `len` bytes. -/
structure Slot where
  seq : UInt32
  used : Bool
  data : List UInt8
deriving DecidableEq

/-- `atm_tcp_conn_t`. -/
structure Conn where
  remoteIp : Ip
  localPort : UInt16
  remotePort : UInt16
  seq : UInt32
  ack : UInt32
  retryCount : UInt32
  peerWindow : UInt16
  localWindow : UInt16
  cwnd : UInt16
  ssthresh : UInt16
  ooo : Fin oooMax → Slot
  state : TcpState

/-- A connection that `kmemset` has cleared. -/
def Conn.zero : Conn :=
  ⟨⟨0, 0, 0, 0⟩, 0, 0, 0, 0, 0, 0, 0, 0, 0, fun _ => ⟨0, false, []⟩, .closed⟩

/-- `TCP_SYN`, `TCP_ACK`, `TCP_FIN` and `TCP_SYNACK`. -/
def tcpSyn : UInt8 := 0x02
def tcpAck : UInt8 := 0x10
def tcpFin : UInt8 := 0x01
def tcpSynAck : UInt8 := tcpSyn ||| tcpAck

/-- `tcp_window_allows`. -/
def tcpWindowAllows (c : Conn) (n : UInt16) : Bool :=
  let lim := if c.peerWindow < c.cwnd then c.peerWindow else c.cwnd
  n ≠ 0 && n ≤ 512 && lim ≠ 0 && n ≤ lim

/-- `tcp_congestion_init`. -/
def tcpCongestionInit (c : Conn) : Conn := { c with cwnd := 512, ssthresh := 2048 }

/-- `tcp_congestion_ack`. -/
def tcpCongestionAck (c : Conn) (n : UInt16) : Conn :=
  if c.cwnd < c.ssthresh then
    let v := c.cwnd.toNat + n.toNat
    { c with cwnd := if v > 2048 then 2048 else UInt16.ofNat v }
  else c

/-- `tcp_congestion_loss`. -/
def tcpCongestionLoss (c : Conn) : Conn :=
  { c with ssthresh := if c.cwnd > 512 then c.cwnd / 2 else 512, cwnd := 512 }

/-- `tcp_ooo_take`: the bytes copied to the caller (none: it returns 0) and the
connection. -/
def tcpOooTake (c : Conn) (cap : UInt16) : List UInt8 × Conn :=
  match (List.finRange oooMax).find? fun i =>
    (c.ooo i).used && (c.ooo i).seq == c.ack && (c.ooo i).data.length ≤ cap.toNat with
  | none => ([], c)
  | some i =>
    let data := (c.ooo i).data
    (data, { c with ack := c.ack + UInt32.ofNat data.length
                    ooo := Function.update c.ooo i { c.ooo i with used := false } })

/-- `tcp_ooo_store`. -/
def tcpOooStore (c : Conn) (seq : UInt32) (data : List UInt8) : Conn :=
  if data.length = 0 ∨ data.length > tcpMss then c
  else if (List.finRange oooMax).any fun i => (c.ooo i).used && (c.ooo i).seq == seq then c
  else
    match (List.finRange oooMax).find? fun i => !(c.ooo i).used with
    | none => c
    | some i => { c with ooo := Function.update c.ooo i ⟨seq, true, data⟩ }

/-- `tcp_send_control`: an empty segment to the peer, if its hardware address is
known. -/
def tcpSendControl (net : Net) (now : UInt32) (c : Conn) (flags : UInt8) : Net × Bool :=
  match netArpLookup net now c.remoteIp with
  | none => (net, false)
  | some mac =>
    netSend net (.segment mac c.remoteIp c.localPort c.remotePort c.seq c.ack flags
      (if c.localWindow ≠ 0 then c.localWindow else 512) [])

/-! ### The receive loop -/

/-- What a turn of a receive loop comes to: another turn, or the end of the loop
with a return value and the bytes copied to the caller. -/
inductive Round where
  | again (net : Net) (c : Conn)
  | done (net : Net) (c : Conn) (code : Int) (out : List UInt8)

/-- How a receive loop ends, if it has: by itself, or because time is up. -/
inductive Ending where
  | waiting
  | expired
  | done (code : Int) (out : List UInt8)

/-- A receive loop with the state it left behind. -/
structure Waited where
  net : Net
  conn : Conn
  ending : Ending

/-- `while (now - start < limit) { … }`: one turn a poll. -/
def pollUntil (start limit : UInt32) (turn : Net → Conn → Poll → Round) :
    Net → Conn → List Poll → Waited
  | net, c, [] => ⟨net, c, .waiting⟩
  | net, c, p :: polls =>
    if p.test - start < limit then
      match turn net c p with
      | .again net c => pollUntil start limit turn net c polls
      | .done net c code out => ⟨net, c, .done code out⟩
    else ⟨net, c, .expired⟩

/-- How every turn begins: receive, and go round again unless the frame is long
enough and passes `tcp_validate_frame`. -/
def screened (use : Net → Conn → Poll → Round) (net : Net) (c : Conn) (p : Poll) : Round :=
  let r := netRecv net p
  if r.2 < ethHlen + 20 + tcpHdrSize then .again r.1 c
  else if tcpValidateFrame p.frame r.2 = false then .again r.1 c
  else use r.1 c p

/-- A call with the state it left behind. It has returned unless `code` is
missing: then it is still in one of its loops. `out` is what was copied to the
caller's buffer. -/
structure Call where
  net : Net
  conn : Conn
  code : Option Int
  out : List UInt8

/-- The clock of one attempt, when it sends and when it starts to wait, and the
polls of its wait. -/
structure Try where
  send : UInt32
  start : UInt32
  polls : List Poll

/-- The `for(retry_count=0;retry_count<3;retry_count++)` loops, with `k` attempts
to go: transmit and wait for the answer. `refused` is done to the connection when
the transmission fails, `exhausted` when no attempt is left. -/
def retry (transmit : Net → UInt32 → Conn → Net × Bool) (refused exhausted : Conn → Conn)
    (limit : UInt32) (turn : Net → Conn → Poll → Round) : Nat → Net → Conn → List Try → Call
  | 0, net, c, _ => ⟨net, exhausted c, some (-1), []⟩
  | _ + 1, net, c, [] => ⟨net, c, none, []⟩
  | k + 1, net, c, t :: tries =>
    match transmit net t.send c with
    | (net, false) => ⟨net, refused c, some (-1), []⟩
    | (net, true) =>
      match pollUntil t.start limit turn net c t.polls with
      | ⟨net, c, .waiting⟩ => ⟨net, c, none, []⟩
      | ⟨net, c, .done code out⟩ => ⟨net, c, some code, out⟩
      | ⟨net, c, .expired⟩ =>
        retry transmit refused exhausted limit turn k net
          { c with retryCount := c.retryCount + 1 } tries

/-- `c->state=ATM_TCP_ERROR`. -/
def Conn.fail (c : Conn) : Conn := { c with state := .error }

/-! ### Opening -/

/-- `atm_tcp_listen`. -/
def atmTcpListen (net : Net) (l : Conn) (port : UInt16) : Conn × Int :=
  if port = 0 ∨ net.initialized = false then (l, -1)
  else
    let l := { Conn.zero with localPort := port, localWindow := 512 }
    ({ tcpCongestionInit l with state := .listen }, 0)

/-- The connection that a SYN opens on a listening port. -/
def Conn.answered (port : UInt16) (p : Poll) : Conn :=
  let out := { Conn.zero with
    localPort := port
    remotePort := srcPort p.frame
    remoteIp := srcIp p.frame
    seq := p.reply ^^^ (port.toUInt32 <<< 16)
    ack := seqOf p.frame + 1
    peerWindow := windowOf p.frame
    localWindow := 512 }
  { tcpCongestionInit out with state := .synReceived }

/-- A listener's use of a frame: a SYN for its port opens a connection. -/
def acceptSyn (port : UInt16) (net : Net) (c : Conn) (p : Poll) : Round :=
  if flagsOf p.frame ≠ tcpSyn ∨ dstPort p.frame ≠ port then .again net c
  else
    .done net (Conn.answered port p) 0 []

/-- The use of a frame while the SYN-ACK is out: the final ACK establishes the
connection. -/
def acceptAck (net : Net) (c : Conn) (p : Poll) : Round :=
  if flagsOf p.frame &&& tcpAck ≠ 0 ∧ srcPort p.frame = c.remotePort ∧
      dstPort p.frame = c.localPort ∧ ackOf p.frame = c.seq + 1 then
    .done net { c with seq := c.seq + 1, state := .established } 0 []
  else .again net c

/-- What `atm_tcp_accept` finds outside: the clock at its start, the polls of the
listener, and its attempts to answer the SYN. -/
structure AcceptEnv where
  start : UInt32
  polls : List Poll
  tries : List Try

/-- `atm_tcp_accept`; the connection of the call is the accepted one. -/
def atmTcpAccept (net : Net) (l out : Conn) (timeout : UInt32) (e : AcceptEnv) : Call :=
  if l.state ≠ .listen then ⟨net, out, some (-1), []⟩
  else
    match pollUntil e.start timeout (screened (acceptSyn l.localPort)) net out e.polls with
    | ⟨net, out, .waiting⟩ => ⟨net, out, none, []⟩
    | ⟨net, out, .expired⟩ => ⟨net, out, some (-1), []⟩
    | ⟨net, out, .done _ _⟩ =>
      retry (fun net now c => tcpSendControl net now c tcpSynAck) Conn.fail Conn.fail
        (timeout / 3 + 1) (screened acceptAck) 3 net out e.tries

/-- A client's use of a frame: the matching SYN-ACK establishes the connection and
is acknowledged. -/
def connectSynAck (net : Net) (c : Conn) (p : Poll) : Round :=
  if srcPort p.frame ≠ c.remotePort ∨ dstPort p.frame ≠ c.localPort ∨
      flagsOf p.frame ≠ tcpSynAck ∨ ackOf p.frame ≠ c.seq + 1 then .again net c
  else
    let c := { c with
      ack := seqOf p.frame + 1
      seq := c.seq + 1
      peerWindow := windowOf p.frame
      localWindow := 512 }
    let c := { tcpCongestionInit c with state := .established }
    match tcpSendControl net p.reply c tcpAck with
    | (net, sent) => .done net c (if sent then 0 else -1) []

/-- The turn of the loop that waits for the peer's hardware address. -/
def resolveTurn (net : Net) (c : Conn) (p : Poll) : Round :=
  let r := netRecv net p
  if (netArpLookup r.1 p.reply c.remoteIp).isSome then .done r.1 c 0 [] else .again r.1 c

/-- What `atm_tcp_connect` finds outside: the clock where it chooses its sequence
number, at the neighbour lookups and at the start of the wait for a neighbour, the
polls of that wait, and its attempts. -/
structure ConnectEnv where
  choose : UInt32
  lookup : UInt32
  start : UInt32
  polls : List Poll
  recheck : UInt32
  tries : List Try

/-- The connection on its way to a peer, from a local port of its own. -/
def Conn.dialled (ip : Ip) (port localPort : UInt16) (choose : UInt32) : Conn :=
  { Conn.zero with
    remoteIp := ip
    remotePort := port
    localPort := localPort
    seq := choose ^^^ (localPort.toUInt32 <<< 16)
    state := .synSent }

/-- `atm_tcp_connect` once the connection is in `SYN_SENT` and the neighbour is
known. -/
def connectTries (net : Net) (c : Conn) (timeout : UInt32) (tries : List Try) : Call :=
  retry (fun net now c => tcpSendControl net now c tcpSyn) Conn.fail Conn.fail
    (timeout / 3 + 1) (screened connectSynAck) 3 net c tries

/-- `atm_tcp_connect`. -/
def atmTcpConnect (net : Net) (c : Conn) (ip : Ip) (port : UInt16) (timeout : UInt32)
    (e : ConnectEnv) : Call :=
  if port = 0 ∨ net.initialized = false then ⟨net, c, some (-1), []⟩
  else
    let c := Conn.dialled ip port net.nextPort e.choose
    let net := { net with nextPort := net.nextPort + 1 }
    if (netArpLookup net e.lookup ip).isSome then connectTries net c timeout e.tries
    else
      match pollUntil e.start (timeout / 3 + 1) resolveTurn (netArpRequest net ip) c e.polls with
      | ⟨net, c, .waiting⟩ => ⟨net, c, none, []⟩
      | ⟨net, c, _⟩ =>
        if (netArpLookup net e.recheck ip).isSome then connectTries net c timeout e.tries
        else ⟨net, c.fail, some (-1), []⟩

/-! ### Data -/

/-- A sender's use of a frame: the ACK of everything sent ends the wait. -/
def sendAck (expected : UInt32) (n : UInt16) (net : Net) (c : Conn) (p : Poll) : Round :=
  if srcPort p.frame = c.remotePort ∧ dstPort p.frame = c.localPort ∧
      flagsOf p.frame &&& tcpAck ≠ 0 ∧ ackOf p.frame = expected then
    let c := { c with peerWindow := windowOf p.frame, seq := expected }
    .done net (tcpCongestionAck c n) n.toNat []
  else .again net c

/-- The clock at the neighbour lookup of `atm_tcp_send`, and its attempts. -/
structure SendEnv where
  lookup : UInt32
  tries : List Try

/-- `atm_tcp_send` of the bytes `data`. The segment is built once and sent again
unchanged. -/
def atmTcpSend (net : Net) (c : Conn) (data : List UInt8) (e : SendEnv) : Call :=
  let n := UInt16.ofNat data.length
  if c.state ≠ .established ∨ tcpWindowAllows c n = false then ⟨net, c, some (-1), []⟩
  else
    match netArpLookup net e.lookup c.remoteIp with
    | none => ⟨net, c, some (-1), []⟩
    | some mac =>
      let frame := Sent.segment mac c.remoteIp c.localPort c.remotePort c.seq c.ack
        (tcpAck ||| 0x08) (if c.localWindow ≠ 0 then c.localWindow else 512) data
      retry (fun net _ _ => netSend net frame) id (fun c => (tcpCongestionLoss c).fail) 100
        (screened (sendAck (c.seq + n.toUInt32) n)) 3 net { c with retryCount := 0 } e.tries

/-- A receiver's use of a frame: data ahead of `ack` is stored, data at `ack` is
delivered if it fits, and both are acknowledged. -/
def recvSegment (cap : UInt16) (net : Net) (c : Conn) (p : Poll) : Round :=
  let data := payload p.frame
  let seq := seqOf p.frame
  if srcPort p.frame ≠ c.remotePort ∨ dstPort p.frame ≠ c.localPort then .again net c
  else if data.length = 0 ∨ data.length > c.localWindow.toNat then .again net c
  else if seq > c.ack then
    let c := { tcpOooStore c seq data with peerWindow := windowOf p.frame }
    .again (tcpSendControl net p.reply c tcpAck).1 c
  else if data.length > cap.toNat ∨ seq ≠ c.ack then .again net c
  else
    let c := { c with ack := c.ack + UInt32.ofNat data.length, peerWindow := windowOf p.frame }
    match tcpSendControl net p.reply c tcpAck with
    | (net, false) => .done net c.fail (-1) data
    | (net, true) => .done net c data.length data

/-- What `atm_tcp_recv` finds outside: the clock at the reply to a stored segment
and at the start of the wait, and the polls of the wait. -/
structure RecvEnv where
  reply : UInt32
  start : UInt32
  polls : List Poll

/-- `atm_tcp_recv`. -/
def atmTcpRecv (net : Net) (c : Conn) (cap : UInt16) (timeout : UInt32) (e : RecvEnv) : Call :=
  if cap = 0 ∨ c.state ≠ .established then ⟨net, c, some (-1), []⟩
  else
    match tcpOooTake c cap with
    | (data, c) =>
      if data.length > 0 then
        match tcpSendControl net e.reply c tcpAck with
        | (net, false) => ⟨net, c.fail, some (-1), data⟩
        | (net, true) => ⟨net, c, some data.length, data⟩
      else
        match pollUntil e.start timeout (screened (recvSegment cap)) net c e.polls with
        | ⟨net, c, .waiting⟩ => ⟨net, c, none, []⟩
        | ⟨net, c, .expired⟩ => ⟨net, c, some (-1), []⟩
        | ⟨net, c, .done code out⟩ => ⟨net, c, some code, out⟩

/-- `atm_tcp_close`, with the clock at the neighbour lookup. -/
def atmTcpClose (net : Net) (c : Conn) (now : UInt32) : Net × Conn × Int :=
  if c.state = .established then
    match tcpSendControl net now { c with state := .finWait } (tcpFin ||| tcpAck) with
    | (net, false) => (net, c.fail, -1)
    | (net, true) => (net, { c with seq := c.seq + 1, state := .closed }, 0)
  else (net, { c with state := .closed }, 0)

/-- `native_socket_poll` on the connection that `slot_for` finds: `POLLIN` is 1,
`POLLOUT` 4, `POLLERR` 8, `POLLHUP` 16 and `POLLNVAL` 32. -/
def nativeSocketPoll (s : Option Conn) (events : UInt16) : UInt16 :=
  match s with
  | none => 32
  | some c =>
    if c.state = .error then 8
    else
      (if c.state = .closed ∨ c.state = .finWait then (16 : UInt16) else 0) |||
        (if c.state = .established ∧ events &&& 4 ≠ 0 then (4 : UInt16) else 0) |||
        (if events &&& 1 ≠ 0 ∧ (List.finRange oooMax).any fun i => (c.ooo i).used then (1 : UInt16)
          else 0)

end AtmKoala.Net
