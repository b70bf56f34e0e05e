import AtmKoala.Net.Session

/-!
Isolation from other hosts.

Two runs are fed the same clock and the same frames, except that where one run
hears nothing or an IPv4 frame that is not from the peer to the local address
(`Foreign`), the other may hear nothing or another such frame. `Unheeded` says
that no foreign frame looks like what the receive loop in progress waits for:
the loops recognise it by ports, flags and numbers, and no loop looks at the
addresses. `peers_isolated` is the two-run property under that condition.
-/

namespace AtmKoala.Net

/-! ### Frames of others -/

/-- Nothing, or an IPv4 frame that is not from `peer` to `own`. -/
def Foreign (peer own : Ip) (p : Poll) : Prop :=
  p.n ≤ 0 ∨ (ethertype p.frame = 0x0800 ∧ (srcIp p.frame ≠ peer ∨ dstIp p.frame ≠ own))

/-- Nothing, or an IPv4 frame that is not addressed to `own`. -/
def Misaddressed (own : Ip) (p : Poll) : Prop :=
  p.n ≤ 0 ∨ (ethertype p.frame = 0x0800 ∧ dstIp p.frame ≠ own)

/-- Two turns that differ in a frame to be ignored, if at all. -/
structure Alike (ignored : Poll → Prop) (p q : Poll) : Prop where
  test : p.test = q.test
  heard : p.heard = q.heard
  reply : p.reply = q.reply
  frame : p = q ∨ (ignored p ∧ ignored q)

/-- Two attempts that differ in frames to be ignored, if at all. -/
structure TryAlike (ignored : Poll → Prop) (t u : Try) : Prop where
  send : t.send = u.send
  start : t.start = u.start
  polls : List.Forall₂ (Alike ignored) t.polls u.polls

/-- ARP takes no notice of IPv4 frames. -/
theorem netRecv_ipv4 {net : Net} {p : Poll} (quiet : p.n ≤ 0 ∨ ethertype p.frame = 0x0800) :
    (netRecv net p).1 = net := by
  unfold netRecv
  split
  · rfl
  · rename_i some
    have ipv4 : ethertype p.frame = 0x0800 := quiet.resolve_left fun e => some (.inr e)
    simp [netArpObserve, ipv4]

/-- A turn passes over a frame that no use is made of. -/
theorem screened_ignored {use : Net → Conn → Poll → Round} {net : Net} {c : Conn} {p : Poll}
    (quiet : p.n ≤ 0 ∨ ethertype p.frame = 0x0800)
    (unused : tcpValidateFrame p.frame p.n = true → use net c p = .again net c) :
    screened use net c p = .again net c := by
  have same : (netRecv net p).1 = net := netRecv_ipv4 quiet
  rcases screened_cases use net c p with result | ⟨valid, result⟩
  · rw [result, same]
  · rw [result, same, unused valid]

/-! ### Two runs of a loop -/

section Congruence

variable {P : Conn → Prop} {ignored : Poll → Prop} {turn : Net → Conn → Poll → Round}
  {start limit : UInt32}

/-- A loop that cannot tell the frames of two runs apart does the same in both. -/
theorem pollUntil_congr
    (same : ∀ net c p q, P c → Alike ignored p q → turn net c p = turn net c q)
    (kept : ∀ net c p, P c → (turn net c p).Meets P fun _ _ _ => True) {net : Net} {c : Conn}
    {ps qs : List Poll} (init : P c) (alike : List.Forall₂ (Alike ignored) ps qs) :
    pollUntil start limit turn net c ps = pollUntil start limit turn net c qs := by
  induction alike generalizing net c with
  | nil => rfl
  | @cons p q ps qs head _ ih =>
    have step := kept net c p init
    unfold pollUntil
    rw [head.test, ← same net c p q init head]
    split
    · cases result : turn net c p with
      | again net' c' =>
        rw [result] at step
        exact ih step
      | done => rfl
    · rfl

/-- So do the attempts of a handshake. -/
theorem retry_congr {transmit : Net → UInt32 → Conn → Net × Bool}
    {refused exhausted : Conn → Conn}
    (same : ∀ net c p q, P c → Alike ignored p q → turn net c p = turn net c q)
    (kept : ∀ net c p, P c → (turn net c p).Meets P fun _ _ _ => True)
    (counted : ∀ c, P c → P { c with retryCount := c.retryCount + 1 }) {k : Nat} {net : Net}
    {c : Conn} {ts us : List Try} (init : P c) (alike : List.Forall₂ (TryAlike ignored) ts us) :
    retry transmit refused exhausted limit turn k net c ts =
      retry transmit refused exhausted limit turn k net c us := by
  induction k generalizing net c ts us with
  | zero => rfl
  | succ k ih =>
    cases alike with
    | nil => rfl
    | @cons t u ts us head rest =>
      unfold retry
      rw [head.send]
      split
      · rfl
      · rename_i net' _
        have along : Along (fun _ _ => True) u.start limit turn net' c t.polls :=
          Along.of_forall (fun _ _ => trivial) net' c
        have waited := pollUntil_rule (fun net c p holds _ => kept net c p holds) init along
        rw [head.start, ← pollUntil_congr same kept init head.polls]
        split
        · rfl
        · rfl
        · rename_i ended
          rw [ended] at waited
          exact ih (counted _ waited) rest

end Congruence

/-! ### What the loops wait for -/

/-- A valid segment between the connection's ports with such flags that
acknowledges `expected`: what a handshake and a sender wait for. -/
structure Answers (c : Conn) (flags : UInt8 → Prop) (expected : UInt32) (p : Poll) : Prop where
  valid : tcpValidateFrame p.frame p.n = true
  src : srcPort p.frame = c.remotePort
  dst : dstPort p.frame = c.localPort
  flagged : flags (flagsOf p.frame)
  acked : ackOf p.frame = expected

/-- A valid SYN for the port: what a listener waits for. -/
def Opens (port : UInt16) (p : Poll) : Prop :=
  tcpValidateFrame p.frame p.n = true ∧ flagsOf p.frame = tcpSyn ∧ dstPort p.frame = port

/-- Data that is stored, or delivered into a buffer of `cap` bytes: what a receiver
waits for. -/
def Brings (c : Conn) (cap : UInt16) (p : Poll) : Prop :=
  ForUs c p ∧ (c.ack < seqOf p.frame ∨
    (seqOf p.frame = c.ack ∧ (payload p.frame).length ≤ cap.toNat))

/-- The fields that the waits for an answer compare with. -/
structure SameEnds (c₀ c : Conn) : Prop where
  localPort : c.localPort = c₀.localPort
  remotePort : c.remotePort = c₀.remotePort
  seq : c.seq = c₀.seq

theorem SameEnds.refl (c : Conn) : SameEnds c c := ⟨rfl, rfl, rfl⟩

/-- The fields that the wait for data compares with. -/
structure SameWindow (c₀ c : Conn) : Prop where
  localPort : c.localPort = c₀.localPort
  remotePort : c.remotePort = c₀.remotePort
  ack : c.ack = c₀.ack
  localWindow : c.localWindow = c₀.localWindow

section Uses

variable {c₀ c : Conn} {net : Net} {p : Poll}

theorem connectSynAck_ignored (ends : SameEnds c₀ c)
    (valid : tcpValidateFrame p.frame p.n = true)
    (no : ¬Answers c₀ (· = tcpSynAck) (c₀.seq + 1) p) : connectSynAck net c p = .again net c := by
  unfold connectSynAck
  rw [ends.localPort, ends.remotePort, ends.seq]
  refine if_pos ?_
  by_contra heeded
  simp only [not_or, not_not, ne_eq] at heeded
  exact no ⟨valid, heeded.1, heeded.2.1, heeded.2.2.1, heeded.2.2.2⟩

theorem acceptAck_ignored (ends : SameEnds c₀ c) (valid : tcpValidateFrame p.frame p.n = true)
    (no : ¬Answers c₀ (· &&& tcpAck ≠ 0) (c₀.seq + 1) p) :
    acceptAck net c p = .again net c := by
  unfold acceptAck
  rw [ends.localPort, ends.remotePort, ends.seq]
  refine if_neg ?_
  rintro ⟨flagged, src, dst, acked⟩
  exact no ⟨valid, src, dst, flagged, acked⟩

theorem sendAck_ignored {expected : UInt32} {n : UInt16} (ends : SameEnds c₀ c)
    (valid : tcpValidateFrame p.frame p.n = true)
    (no : ¬Answers c₀ (· &&& tcpAck ≠ 0) expected p) :
    sendAck expected n net c p = .again net c := by
  unfold sendAck
  rw [ends.localPort, ends.remotePort]
  refine if_neg ?_
  rintro ⟨src, dst, flagged, acked⟩
  exact no ⟨valid, src, dst, flagged, acked⟩

theorem acceptSyn_ignored {port : UInt16} (valid : tcpValidateFrame p.frame p.n = true)
    (no : ¬Opens port p) : acceptSyn port net c p = .again net c := by
  unfold acceptSyn
  refine if_pos ?_
  by_contra heeded
  simp only [not_or, not_not, ne_eq] at heeded
  exact no ⟨valid, heeded.1, heeded.2⟩

theorem recvSegment_ignored {cap : UInt16} (same : SameWindow c₀ c)
    (valid : tcpValidateFrame p.frame p.n = true) (no : ¬Brings c₀ cap p) :
    recvSegment cap net c p = .again net c := by
  unfold recvSegment
  simp only [same.localPort, same.remotePort, same.ack, same.localWindow]
  by_cases ports : srcPort p.frame ≠ c₀.remotePort ∨ dstPort p.frame ≠ c₀.localPort
  · rw [if_pos ports]
  rw [if_neg ports]
  by_cases size : (payload p.frame).length = 0 ∨ (payload p.frame).length > c₀.localWindow.toNat
  · rw [if_pos size]
  rw [if_neg size]
  obtain ⟨src, dst⟩ := not_or.mp ports
  have forUs : ForUs c₀ p := ⟨valid, not_not.mp src, not_not.mp dst, fun e => size (.inl e),
    Nat.not_lt.mp fun e => size (.inr e)⟩
  rw [if_neg fun ahead => no ⟨forUs, .inl ahead⟩, if_pos]
  by_contra heeded
  simp only [not_or, not_not, ne_eq, Nat.not_lt] at heeded
  exact no ⟨forUs, .inr ⟨heeded.2, heeded.1⟩⟩

theorem connectSynAck_kept (ends : SameEnds c₀ c) :
    (connectSynAck net c p).Meets (SameEnds c₀) fun _ _ _ => True := by
  unfold connectSynAck
  split
  · exact ends
  · trivial

theorem acceptAck_kept (ends : SameEnds c₀ c) :
    (acceptAck net c p).Meets (SameEnds c₀) fun _ _ _ => True := by
  unfold acceptAck
  split
  · trivial
  · exact ends

theorem sendAck_kept {expected : UInt32} {n : UInt16} (ends : SameEnds c₀ c) :
    (sendAck expected n net c p).Meets (SameEnds c₀) fun _ _ _ => True := by
  unfold sendAck
  split
  · trivial
  · exact ends

theorem resolveTurn_kept (ends : SameEnds c₀ c) :
    (resolveTurn net c p).Meets (SameEnds c₀) fun c _ _ => SameEnds c₀ c := by
  simp only [resolveTurn]
  split
  · exact ends
  · exact ends

theorem acceptSyn_kept {port : UInt16} :
    (acceptSyn port net c p).Meets (fun _ => True) fun _ _ _ => True := by
  unfold acceptSyn
  split
  · trivial
  · trivial

theorem recvSegment_kept {cap : UInt16} (same : SameWindow c₀ c) :
    (recvSegment cap net c p).Meets (SameWindow c₀) fun _ _ _ => True := by
  have kept : SameWindow c₀ (c.keep p) := by
    unfold Conn.keep
    rcases tcpOooStore_cases c (seqOf p.frame) (payload p.frame) with unchanged | ⟨i, -, -, -, result⟩
    · rw [unchanged]
      exact ⟨same.localPort, same.remotePort, same.ack, same.localWindow⟩
    · rw [result]
      exact ⟨same.localPort, same.remotePort, same.ack, same.localWindow⟩
  simp only [recvSegment]
  split
  · exact same
  split
  · exact same
  split
  · exact kept
  split
  · exact same
  split
  · trivial
  · trivial

end Uses

/-! ### Foreign frames that no loop heeds -/

/-- None of the frames that are foreign is what the loop waits for. -/
def Unheeded (foreign heeded : Poll → Prop) (polls : List Poll) : Prop :=
  ∀ p ∈ polls, foreign p → ¬heeded p

section Lists

variable {foreign heeded : Poll → Prop}

theorem alike_unheeded {ps qs : List Poll} (alike : List.Forall₂ (Alike foreign) ps qs)
    (left : Unheeded foreign heeded ps) (right : Unheeded foreign heeded qs) :
    List.Forall₂ (Alike fun p => foreign p ∧ ¬heeded p) ps qs := by
  induction alike with
  | nil => exact .nil
  | @cons p q ps qs head rest ih =>
    refine .cons ⟨head.test, head.heard, head.reply, ?_⟩
      (ih (fun x hx => left x (List.mem_cons_of_mem _ hx))
        fun x hx => right x (List.mem_cons_of_mem _ hx))
    rcases head.frame with same | ⟨foreignP, foreignQ⟩
    · exact .inl same
    · exact .inr ⟨⟨foreignP, left p List.mem_cons_self foreignP⟩,
        foreignQ, right q List.mem_cons_self foreignQ⟩

theorem tryAlike_unheeded {ts us : List Try} (alike : List.Forall₂ (TryAlike foreign) ts us)
    (left : ∀ t ∈ ts, Unheeded foreign heeded t.polls)
    (right : ∀ u ∈ us, Unheeded foreign heeded u.polls) :
    List.Forall₂ (TryAlike fun p => foreign p ∧ ¬heeded p) ts us := by
  induction alike with
  | nil => exact .nil
  | @cons t u ts us head rest ih =>
    refine .cons ⟨head.send, head.start, ?_⟩
      (ih (fun x hx => left x (List.mem_cons_of_mem _ hx))
        fun x hx => right x (List.mem_cons_of_mem _ hx))
    exact alike_unheeded head.polls (left t List.mem_cons_self) (right u List.mem_cons_self)

/-- A turn cannot tell foreign frames apart that its use ignores. -/
theorem screened_alike {P : Conn → Prop} {use : Net → Conn → Poll → Round}
    (quiet : ∀ p, foreign p → p.n ≤ 0 ∨ ethertype p.frame = 0x0800)
    (unused : ∀ net c p, P c → tcpValidateFrame p.frame p.n = true → ¬heeded p →
      use net c p = .again net c)
    (net : Net) (c : Conn) (p q : Poll) (holds : P c)
    (alike : Alike (fun p => foreign p ∧ ¬heeded p) p q) :
    screened use net c p = screened use net c q := by
  rcases alike.frame with rfl | ⟨⟨foreignP, noP⟩, foreignQ, noQ⟩
  · rfl
  · rw [screened_ignored (quiet p foreignP) fun valid => unused net c p holds valid noP,
      screened_ignored (quiet q foreignQ) fun valid => unused net c q holds valid noQ]

end Lists

theorem Foreign.quiet {peer own : Ip} (p : Poll) (foreign : Foreign peer own p) :
    p.n ≤ 0 ∨ ethertype p.frame = 0x0800 :=
  foreign.imp id And.left

theorem Misaddressed.quiet {own : Ip} (p : Poll) (foreign : Misaddressed own p) :
    p.n ≤ 0 ∨ ethertype p.frame = 0x0800 :=
  foreign.imp id And.left

/-- The wait for the peer's hardware address does not look at IPv4 frames. -/
theorem resolveTurn_alike {peer own : Ip} (net : Net) (c : Conn) (p q : Poll)
    (alike : Alike (Foreign peer own) p q) : resolveTurn net c p = resolveTurn net c q := by
  rcases alike.frame with rfl | ⟨foreignP, foreignQ⟩
  · rfl
  · simp only [resolveTurn, netRecv_ipv4 foreignP.quiet, netRecv_ipv4 foreignQ.quiet, alike.reply]

/-- Attempts of a handshake or of a sender. -/
theorem answers_congr {peer own : Ip} {c₀ : Conn} {flags : UInt8 → Prop} {expected : UInt32}
    {use : Net → Conn → Poll → Round}
    (unused : ∀ net c p, SameEnds c₀ c → tcpValidateFrame p.frame p.n = true →
      ¬Answers c₀ flags expected p → use net c p = .again net c)
    (kept : ∀ net c p, SameEnds c₀ c → (use net c p).Meets (SameEnds c₀) fun _ _ _ => True)
    {transmit : Net → UInt32 → Conn → Net × Bool} {refused exhausted : Conn → Conn}
    {limit : UInt32} {k : Nat} {net : Net} {c : Conn} {ts us : List Try} (ends : SameEnds c₀ c)
    (alike : List.Forall₂ (TryAlike (Foreign peer own)) ts us)
    (left : ∀ t ∈ ts, Unheeded (Foreign peer own) (Answers c₀ flags expected) t.polls)
    (right : ∀ u ∈ us, Unheeded (Foreign peer own) (Answers c₀ flags expected) u.polls) :
    retry transmit refused exhausted limit (screened use) k net c ts =
      retry transmit refused exhausted limit (screened use) k net c us := by
  have ignored := tryAlike_unheeded alike left right
  refine retry_congr (P := SameEnds c₀) ?_ ?_ ?_ ends ignored
  · exact screened_alike Foreign.quiet unused
  · exact fun net c p holds => screened_meets holds fun _ => kept _ c p holds
  · exact fun c holds => ⟨holds.localPort, holds.remotePort, holds.seq⟩

/-! ### Calls -/

/-- A call that waits for frames. -/
inductive Visit where
  | connect (ip : Ip) (port : UInt16) (timeout : UInt32) (e : ConnectEnv)
  | accept (l : Conn) (timeout : UInt32) (e : AcceptEnv)
  | send (data : List UInt8) (e : SendEnv)
  | recv (cap : UInt16) (timeout : UInt32) (e : RecvEnv)

/-- What the call does. -/
def Visit.call (net : Net) (c : Conn) : Visit → Call
  | .connect ip port timeout e => atmTcpConnect net c ip port timeout e
  | .accept l timeout e => atmTcpAccept net l c timeout e
  | .send data e => atmTcpSend net c data e
  | .recv cap timeout e => atmTcpRecv net c cap timeout e

/-- The connection that a listener has made of a SYN when it begins to answer. -/
def answering (net : Net) (l out : Conn) (timeout : UInt32) (e : AcceptEnv) : Conn :=
  (pollUntil e.start timeout (screened (acceptSyn l.localPort)) net out e.polls).conn

/-- The two calls are the same and meet the same outside, apart from frames of
others: nothing, or IPv4 frames not from the connection's peer to the local
address. (A listener has no peer yet.) -/
inductive SameFromPeer (net : Net) (c : Conn) : Visit → Visit → Prop where
  | connect {ip : Ip} {port : UInt16} {timeout : UInt32} {e : ConnectEnv} {polls : List Poll}
      {tries : List Try} (polled : List.Forall₂ (Alike (Foreign ip net.ip)) e.polls polls)
      (tried : List.Forall₂ (TryAlike (Foreign ip net.ip)) e.tries tries) :
      SameFromPeer net c (.connect ip port timeout e)
        (.connect ip port timeout { e with polls := polls, tries := tries })
  | accept {l : Conn} {timeout : UInt32} {e : AcceptEnv} {polls : List Poll} {tries : List Try}
      (polled : List.Forall₂ (Alike (Misaddressed net.ip)) e.polls polls)
      (tried : List.Forall₂
        (TryAlike (Foreign (answering net l c timeout e).remoteIp net.ip)) e.tries tries) :
      SameFromPeer net c (.accept l timeout e)
        (.accept l timeout { e with polls := polls, tries := tries })
  | send {data : List UInt8} {e : SendEnv} {tries : List Try}
      (tried : List.Forall₂ (TryAlike (Foreign c.remoteIp net.ip)) e.tries tries) :
      SameFromPeer net c (.send data e) (.send data { e with tries := tries })
  | recv {cap : UInt16} {timeout : UInt32} {e : RecvEnv} {polls : List Poll}
      (polled : List.Forall₂ (Alike (Foreign c.remoteIp net.ip)) e.polls polls) :
      SameFromPeer net c (.recv cap timeout e) (.recv cap timeout { e with polls := polls })

/-- No frame of others is what the call waits for: for a handshake and a sender, a
valid segment between the connection's ports with the right flags that
acknowledges the right number; for a listener, a valid SYN for its port; for a
receiver, data between the connection's ports that is stored or delivered. -/
def UnheededIn (net : Net) (c : Conn) : Visit → Prop
  | .connect ip port _ e =>
    let c₀ := Conn.dialled ip port net.nextPort e.choose
    ∀ t ∈ e.tries, Unheeded (Foreign ip net.ip) (Answers c₀ (· = tcpSynAck) (c₀.seq + 1)) t.polls
  | .accept l timeout e =>
    let c₀ := answering net l c timeout e
    Unheeded (Misaddressed net.ip) (Opens l.localPort) e.polls ∧
      ∀ t ∈ e.tries, Unheeded (Foreign c₀.remoteIp net.ip)
        (Answers c₀ (· &&& tcpAck ≠ 0) (c₀.seq + 1)) t.polls
  | .send data e =>
    ∀ t ∈ e.tries, Unheeded (Foreign c.remoteIp net.ip)
      (Answers c (· &&& tcpAck ≠ 0) (c.seq + (UInt16.ofNat data.length).toUInt32)) t.polls
  | .recv cap _ e => Unheeded (Foreign c.remoteIp net.ip) (Brings c cap) e.polls

/-! ### Two runs of a call -/

section Calls

variable {net : Net} {c : Conn}

theorem connectTries_congr {ip : Ip} {c₀ : Conn} {own : Ip} {timeout : UInt32} {ts us : List Try}
    (ends : SameEnds c₀ c) (alike : List.Forall₂ (TryAlike (Foreign ip own)) ts us)
    (left : ∀ t ∈ ts,
      Unheeded (Foreign ip own) (Answers c₀ (· = tcpSynAck) (c₀.seq + 1)) t.polls)
    (right : ∀ u ∈ us,
      Unheeded (Foreign ip own) (Answers c₀ (· = tcpSynAck) (c₀.seq + 1)) u.polls) :
    connectTries net c timeout ts = connectTries net c timeout us :=
  answers_congr (fun _ _ _ ends valid no => connectSynAck_ignored ends valid no)
    (fun _ _ _ ends => connectSynAck_kept ends) ends alike left right

/-- The wait for the neighbour's hardware address. -/
theorem resolve_congr {ip own : Ip} {start limit : UInt32} {ps qs : List Poll}
    (alike : List.Forall₂ (Alike (Foreign ip own)) ps qs) :
    pollUntil start limit resolveTurn net c ps = pollUntil start limit resolveTurn net c qs :=
  pollUntil_congr (P := fun _ => True) (fun net c p q _ head => resolveTurn_alike net c p q head)
    (fun net c p _ => by
      simp only [resolveTurn]
      split
      · trivial
      · trivial) trivial alike

/-- The wait of a listener. -/
theorem listen_congr {own : Ip} {port : UInt16} {start limit : UInt32} {ps qs : List Poll}
    (alike : List.Forall₂ (Alike (Misaddressed own)) ps qs)
    (left : Unheeded (Misaddressed own) (Opens port) ps)
    (right : Unheeded (Misaddressed own) (Opens port) qs) :
    pollUntil start limit (screened (acceptSyn port)) net c ps =
      pollUntil start limit (screened (acceptSyn port)) net c qs := by
  have ignored := alike_unheeded alike left right
  refine pollUntil_congr (P := fun _ => True) ?_ ?_ trivial ignored
  · exact screened_alike Misaddressed.quiet fun _ _ _ _ valid no => acceptSyn_ignored valid no
  · exact fun net c p holds => screened_meets holds fun _ => acceptSyn_kept

/-- The wait for data. -/
theorem data_congr {peer own : Ip} {c₀ : Conn} {cap : UInt16} {start limit : UInt32}
    {ps qs : List Poll} (same : SameWindow c₀ c)
    (alike : List.Forall₂ (Alike (Foreign peer own)) ps qs)
    (left : Unheeded (Foreign peer own) (Brings c₀ cap) ps)
    (right : Unheeded (Foreign peer own) (Brings c₀ cap) qs) :
    pollUntil start limit (screened (recvSegment cap)) net c ps =
      pollUntil start limit (screened (recvSegment cap)) net c qs := by
  have ignored := alike_unheeded alike left right
  refine pollUntil_congr (P := SameWindow c₀) ?_ ?_ same ignored
  · exact screened_alike Foreign.quiet fun _ _ _ same valid no =>
      recvSegment_ignored same valid no
  · exact fun net c p holds => screened_meets holds fun _ => recvSegment_kept holds

theorem atmTcpConnect_congr {ip : Ip} {port : UInt16} {timeout : UInt32} {e : ConnectEnv}
    {polls : List Poll} {tries : List Try}
    (polled : List.Forall₂ (Alike (Foreign ip net.ip)) e.polls polls)
    (tried : List.Forall₂ (TryAlike (Foreign ip net.ip)) e.tries tries)
    (left : UnheededIn net c (.connect ip port timeout e))
    (right : UnheededIn net c (.connect ip port timeout { e with polls := polls, tries := tries })) :
    atmTcpConnect net c ip port timeout e =
      atmTcpConnect net c ip port timeout { e with polls := polls, tries := tries } := by
  unfold atmTcpConnect
  split
  · rfl
  simp only
  split
  · exact connectTries_congr (.refl _) tried left right
  · rw [← resolve_congr polled]
    have along : Along (fun _ _ => True) e.start (timeout / 3 + 1) resolveTurn
        (netArpRequest { net with nextPort := net.nextPort + 1 } ip)
        (Conn.dialled ip port net.nextPort e.choose) e.polls :=
      Along.of_forall (fun _ _ => trivial) _ _
    have waited := pollUntil_rule (fun _ _ _ ends _ => resolveTurn_kept ends)
      (.refl (Conn.dialled ip port net.nextPort e.choose)) along
    split
    · rfl
    · rename_i ended
      rw [ended] at waited
      split
      · exact connectTries_congr waited.at_end tried left right
      · rfl

theorem atmTcpAccept_congr {l : Conn} {timeout : UInt32} {e : AcceptEnv} {polls : List Poll}
    {tries : List Try} (polled : List.Forall₂ (Alike (Misaddressed net.ip)) e.polls polls)
    (tried : List.Forall₂
      (TryAlike (Foreign (answering net l c timeout e).remoteIp net.ip)) e.tries tries)
    (left : UnheededIn net c (.accept l timeout e))
    (right : UnheededIn net c (.accept l timeout { e with polls := polls, tries := tries })) :
    atmTcpAccept net l c timeout e =
      atmTcpAccept net l c timeout { e with polls := polls, tries := tries } := by
  have listened : pollUntil e.start timeout (screened (acceptSyn l.localPort)) net c e.polls =
      pollUntil e.start timeout (screened (acceptSyn l.localPort)) net c polls :=
    listen_congr polled left.1 right.1
  have same : answering net l c timeout { e with polls := polls, tries := tries } =
      answering net l c timeout e := congrArg Waited.conn listened.symm
  have rightTries := right.2
  simp only [same] at rightTries
  have leftTries := left.2
  unfold atmTcpAccept
  split
  · rfl
  rw [← listened]
  split
  · rfl
  · rfl
  · rename_i ended
    have made : answering net l c timeout e = _ := congrArg Waited.conn ended
    rw [made] at leftTries rightTries tried
    exact answers_congr (fun _ _ _ ends valid no => acceptAck_ignored ends valid no)
      (fun _ _ _ ends => acceptAck_kept ends) (.refl _) tried leftTries rightTries

theorem atmTcpSend_congr {data : List UInt8} {e : SendEnv} {tries : List Try}
    (tried : List.Forall₂ (TryAlike (Foreign c.remoteIp net.ip)) e.tries tries)
    (left : UnheededIn net c (.send data e))
    (right : UnheededIn net c (.send data { e with tries := tries })) :
    atmTcpSend net c data e = atmTcpSend net c data { e with tries := tries } := by
  simp only [atmTcpSend]
  split
  · rfl
  split
  · rfl
  · have ends : SameEnds c { c with retryCount := 0 } := ⟨rfl, rfl, rfl⟩
    exact answers_congr (fun _ _ _ ends valid no => sendAck_ignored ends valid no)
      (fun _ _ _ ends => sendAck_kept ends) ends tried left right

theorem atmTcpRecv_congr {cap : UInt16} {timeout : UInt32} {e : RecvEnv} {polls : List Poll}
    (polled : List.Forall₂ (Alike (Foreign c.remoteIp net.ip)) e.polls polls)
    (left : UnheededIn net c (.recv cap timeout e))
    (right : UnheededIn net c (.recv cap timeout { e with polls := polls })) :
    atmTcpRecv net c cap timeout e = atmTcpRecv net c cap timeout { e with polls := polls } := by
  unfold atmTcpRecv
  split
  · rfl
  rcases tcpOooTake_cases c cap with ⟨result, -⟩ | ⟨i, -, result⟩
  · have same : SameWindow c c := ⟨rfl, rfl, rfl, rfl⟩
    simp only [result]
    rw [data_congr same polled left right]
  · simp only [result]
    split
    · rfl
    · rename_i empty
      have none : (c.ooo i).data.length = 0 := by omega
      have same : SameWindow c (c.take i) :=
        ⟨rfl, rfl, by simp [Conn.take, none], rfl⟩
      rw [data_congr same polled left right]

/-- **One call.** -/
theorem Visit.call_congr {v w : Visit} (same : SameFromPeer net c v w)
    (left : UnheededIn net c v) (right : UnheededIn net c w) : v.call net c = w.call net c := by
  cases same with
  | connect polled tried => exact atmTcpConnect_congr polled tried left right
  | accept polled tried => exact atmTcpAccept_congr polled tried left right
  | send tried => exact atmTcpSend_congr tried left right
  | recv polled => exact atmTcpRecv_congr polled left right

end Calls

/-! ### Two runs -/

/-- What a list of calls does, one after the other. -/
def behaviour : Net → Conn → List Visit → List Call
  | _, _, [] => []
  | net, c, v :: vs =>
    v.call net c :: behaviour (v.call net c).net (v.call net c).conn vs

/-- Two runs that differ in frames of others only, none of which is what the call
that meets it waits for. -/
inductive Lockstep : Net → Conn → List Visit → List Visit → Prop where
  | nil (net : Net) (c : Conn) : Lockstep net c [] []
  | cons {net : Net} {c : Conn} {v w : Visit} {vs ws : List Visit}
      (same : SameFromPeer net c v w) (left : UnheededIn net c v) (right : UnheededIn net c w)
      (rest : Lockstep (v.call net c).net (v.call net c).conn vs ws) :
      Lockstep net c (v :: vs) (w :: ws)

/-- **Peer isolation.** Two runs that differ in frames of others, none of which
looks like what the call in progress waits for, behave the same: every call
returns the same, copies the same bytes to its caller, sends the same segments and
leaves the same connection. -/
theorem peers_isolated {net : Net} {c : Conn} {vs ws : List Visit}
    (lockstep : Lockstep net c vs ws) : behaviour net c vs = behaviour net c ws := by
  induction lockstep with
  | nil => rfl
  | cons same left right _ ih =>
    have equal := Visit.call_congr same left right
    unfold behaviour
    rw [ih, equal]

/-- A turn in which nothing arrives. -/
def demoSilence : Poll := ⟨0, 0, 0, fun _ => 0, 0⟩

/-- **Counterexample.** A byte from another host, sent between the connection's
ports under the number expected next, is returned to the caller. -/
theorem stranger_heard :
    ∃ v w, SameFromPeer (demoCall 0).net (demoCall 0).conn v w ∧
      (v.call (demoCall 0).net (demoCall 0).conn).out = [120] ∧
      (w.call (demoCall 0).net (demoCall 0).conn).out = [] := by
  have foreign : Foreign (demoCall 0).conn.remoteIp (demoCall 0).net.ip
      (demoPoll ⟨10, 0, 0, 66⟩ 1 0xC0000001 tcpAck [120]) :=
    .inr ⟨by decide, .inl (by decide)⟩
  have silent : Foreign (demoCall 0).conn.remoteIp (demoCall 0).net.ip demoSilence :=
    .inl (by decide)
  refine ⟨.recv 512 100 ⟨0, 0, [demoPoll ⟨10, 0, 0, 66⟩ 1 0xC0000001 tcpAck [120]]⟩,
    .recv 512 100 ⟨0, 0, [demoSilence]⟩, .recv ?_, by decide, by decide⟩
  exact .cons ⟨rfl, rfl, rfl, .inr ⟨foreign, silent⟩⟩ .nil

/-- **Witness.** The same byte under a number far behind makes no difference. -/
theorem peers_isolated_late :
    behaviour (demoCall 9).net (demoCall 9).conn
        [.recv 512 100 ⟨0, 0, [demoPoll ⟨10, 0, 0, 66⟩ 1 0xC0000001 tcpAck [120]]⟩] =
      behaviour (demoCall 9).net (demoCall 9).conn [.recv 512 100 ⟨0, 0, [demoSilence]⟩] := by
  have foreign : Foreign (demoCall 9).conn.remoteIp (demoCall 9).net.ip
      (demoPoll ⟨10, 0, 0, 66⟩ 1 0xC0000001 tcpAck [120]) :=
    .inr ⟨by decide, .inl (by decide)⟩
  have silent : Foreign (demoCall 9).conn.remoteIp (demoCall 9).net.ip demoSilence :=
    .inl (by decide)
  refine peers_isolated (.cons (.recv (.cons ⟨rfl, rfl, rfl, .inr ⟨foreign, silent⟩⟩ .nil)) ?_ ?_
    (.nil _ _))
  · intro p hp _
    obtain rfl := List.mem_singleton.mp hp
    rintro ⟨-, ahead | next⟩
    · exact absurd ahead (by decide)
    · exact absurd next.1 (by decide)
  · intro p hp _
    obtain rfl := List.mem_singleton.mp hp
    rintro ⟨forUs, -⟩
    exact absurd forUs.valid (by decide)

end AtmKoala.Net
