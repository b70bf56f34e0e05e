import AtmKoala.Lib.SeqSpace
import AtmKoala.Net.Session

/-!
In-order delivery.

The peer sends the bytes of `stream`, numbered from the connection's `ack` on,
in segments of any cut; they arrive in any order, any number of times or not at
all. `InOrder` is the invariant: `ack` is the number of an offset, every stored
segment is a part of the stream under its own number, and what the receives have
returned is a prefix of the stream. Since the stream is shorter than 2^32 bytes,
a segment whose number is `ack` can only be the next one.
-/

namespace AtmKoala.Net

open Lib

/-- A valid frame on these ports, if it carries data, carries a segment of the
stream under its number. -/
def PeerSegment (stream : List UInt8) (first : UInt32) (localPort remotePort : UInt16)
    (p : Poll) : Prop :=
  tcpValidateFrame p.frame p.n = true → srcPort p.frame = remotePort →
    dstPort p.frame = localPort → (payload p.frame).length ≠ 0 →
      ∃ o, seqOf p.frame = seqAt first o ∧ PartAt stream o (payload p.frame)

/-- What the frames of a call say on the connection's ports are segments of the
stream. -/
def FromPeer (stream : List UInt8) (first : UInt32) (s : Session) : Op → Prop
  | .recv _ _ e => ∀ p ∈ e.polls, PeerSegment stream first s.conn.localPort s.conn.remotePort p
  | _ => True

/-- The receiver has followed the stream so far, and `log` is what it returned. -/
structure InOrder (stream : List UInt8) (first : UInt32) (localPort remotePort : UInt16)
    (log : List UInt8) (c : Conn) : Prop where
  localPort : c.localPort = localPort
  remotePort : c.remotePort = remotePort
  logged : log <+: stream
  position : ∃ o, o ≤ stream.length ∧ c.ack = seqAt first o ∧
    (c.state = .established → log = stream.take o)
  stored : ∀ i, (c.ooo i).used = true → (c.ooo i).data ≠ [] ∧
    ∃ o, (c.ooo i).seq = seqAt first o ∧ PartAt stream o (c.ooo i).data

namespace InOrder

variable {stream log : List UInt8} {first : UInt32} {localPort remotePort : UInt16} {c c' : Conn}

/-- The log and the segment at `ack` make up a longer prefix, and `ack` moves to
its end. -/
theorem append {data : List UInt8} {o : Nat} (h : InOrder stream first localPort remotePort log c)
    (short : stream.length < 2 ^ 32) (established : c.state = .established)
    (next : seqAt first o = c.ack) (part : PartAt stream o data) :
    log ++ data = stream.take (o + data.length) ∧
      c.ack + UInt32.ofNat data.length = seqAt first (o + data.length) := by
  obtain ⟨position, bound, ack, follows⟩ := h.position
  obtain rfl : o = position :=
    seqAt_inj (Nat.lt_of_le_of_lt part.1 short) (Nat.lt_of_le_of_lt bound short) (next.trans ack)
  rw [follows established, part.take_append, ack, seqAt_add]
  exact ⟨rfl, rfl⟩

/-- A delivery that leaves the other entries of the store alone. -/
theorem delivered {data : List UInt8} {o : Nat}
    (h : InOrder stream first localPort remotePort log c) (short : stream.length < 2 ^ 32)
    (established : c.state = .established) (next : seqAt first o = c.ack)
    (part : PartAt stream o data) (localSame : c'.localPort = c.localPort)
    (remoteSame : c'.remotePort = c.remotePort) (ack : c'.ack = c.ack + UInt32.ofNat data.length)
    (kept : ∀ i, (c'.ooo i).used = true → c'.ooo i = c.ooo i) :
    InOrder stream first localPort remotePort (log ++ data) c' := by
  obtain ⟨prefixed, moved⟩ := h.append short established next part
  refine ⟨localSame.trans h.localPort, remoteSame.trans h.remotePort, ?_, ?_, ?_⟩
  · rw [prefixed]
    exact List.take_prefix _ stream
  · exact ⟨o + data.length, part.end_le, ack.trans moved, fun _ => prefixed⟩
  · intro i used
    have same := kept i used
    rw [same] at used ⊢
    exact h.stored i used

theorem take {cap : UInt16} {i : Fin oooMax}
    (h : InOrder stream first localPort remotePort log c) (short : stream.length < 2 ^ 32)
    (established : c.state = .established) (takeable : Takeable c cap i) :
    InOrder stream first localPort remotePort (log ++ (c.ooo i).data) (c.take i) := by
  obtain ⟨-, o, seq, part⟩ := h.stored i takeable.used
  refine h.delivered short established (seq.symm.trans takeable.next) part rfl rfl rfl ?_
  intro j used
  by_cases same : j = i
  · subst same
    simp [Conn.take] at used
  · simp [Conn.take, same]

theorem deliver {p : Poll} (h : InOrder stream first localPort remotePort log c)
    (short : stream.length < 2 ^ 32) (established : c.state = .established)
    (genuine : PeerSegment stream first localPort remotePort p) (forUs : ForUs c p)
    (next : seqOf p.frame = c.ack) :
    InOrder stream first localPort remotePort (log ++ payload p.frame) (c.deliver p) := by
  obtain ⟨o, seq, part⟩ := genuine forUs.valid (forUs.src.trans h.remotePort)
    (forUs.dst.trans h.localPort) forUs.some
  exact h.delivered short established (seq.symm.trans next) part rfl rfl rfl fun _ _ => rfl

theorem keep {p : Poll} (h : InOrder stream first localPort remotePort log c)
    (genuine : PeerSegment stream first localPort remotePort p) (forUs : ForUs c p) :
    InOrder stream first localPort remotePort log (c.keep p) := by
  unfold Conn.keep
  rcases tcpOooStore_cases c (seqOf p.frame) (payload p.frame) with
    same | ⟨i, -, some, -, result⟩
  · rw [same]
    exact ⟨h.localPort, h.remotePort, h.logged, h.position, h.stored⟩
  · rw [result]
    refine ⟨h.localPort, h.remotePort, h.logged, h.position, fun j used => ?_⟩
    by_cases new : j = i
    · subst new
      have part := genuine forUs.valid (forUs.src.trans h.remotePort)
        (forUs.dst.trans h.localPort) forUs.some
      simpa using ⟨some, part⟩
    · simp only [ne_eq, new, not_false_eq_true, Function.update_of_ne] at used ⊢
      exact h.stored j used

/-- The position may be given up when the connection is not established. -/
theorem of_longer {data : List UInt8}
    (h : InOrder stream first localPort remotePort (log ++ data) c) :
    InOrder stream first localPort remotePort log c.fail := by
  obtain ⟨o, bound, ack, -⟩ := h.position
  exact ⟨h.localPort, h.remotePort, (List.prefix_append log data).trans h.logged,
    ⟨o, bound, ack, fun e => by cases e⟩, h.stored⟩

theorem untouched (h : InOrder stream first localPort remotePort log c) (same : Untouched c c') :
    InOrder stream first localPort remotePort log c' := by
  obtain ⟨o, bound, ack, follows⟩ := h.position
  refine ⟨same.localPort.trans h.localPort, same.remotePort.trans h.remotePort, h.logged,
    ⟨o, bound, same.ack.trans ack, fun e => follows (same.state e)⟩, ?_⟩
  rw [same.ooo]
  exact h.stored

/-- **One call.** Whatever the peer's segments are and whatever becomes of them,
the bytes returned continue the stream. -/
theorem perform {s : Session} {op : Op} (short : stream.length < 2 ^ 32)
    (h : InOrder stream first localPort remotePort s.log s.conn)
    (genuine : FromPeer stream first s op) :
    InOrder stream first localPort remotePort (s.perform op).log (s.perform op).conn := by
  cases op with
  | send data e => exact h.untouched (atmTcpSend_untouched s.net s.conn data e)
  | close now => exact h.untouched (atmTcpClose_untouched s.net s.conn now)
  | recv cap timeout e =>
    have along : RecvAlong (fun _ p => PeerSegment stream first localPort remotePort p) s.net
        s.conn cap timeout e := by
      intro _ _
      have polls := fun p hp => genuine p hp
      rw [h.localPort, h.remotePort] at polls
      exact Along.of_forall polls s.net s.conn
    have received := recv_rule
      (D := fun data c => InOrder stream first localPort remotePort (s.log ++ data) c) h
      (fun i used => (h.stored i used).1)
      (fun i established takeable => h.take short established takeable)
      (fun c p h _ genuine forUs _ => h.keep genuine forUs)
      (fun c p h established genuine forUs next _ =>
        h.deliver short established genuine forUs next) along
    simp only [Session.perform, Call.returned]
    rcases received with ⟨kept, -, code⟩ | ⟨k, code, c', done, sent | failed⟩
    · cases result : (atmTcpRecv s.net s.conn cap timeout e).code with
      | none => simpa using kept
      | some k =>
        obtain rfl := code k result
        simpa using kept
    · rw [code, sent.2]
      by_cases some : 0 < k
      · simpa [some] using done
      · have empty : (atmTcpRecv s.net s.conn cap timeout e).out = [] :=
          List.length_eq_zero_iff.mp (by have := sent.1; omega)
        rw [empty] at done
        simpa [some] using done
    · rw [code, failed.2, failed.1]
      simpa using done.of_longer

end InOrder

/-- **In-order delivery.** On a connection just opened, with its peer's stream of
less than 2^32 bytes numbered from any `ack` on, the bytes that the receives
return are a prefix of the stream, in every run of calls. -/
theorem received_prefix {stream : List UInt8} (short : stream.length < 2 ^ 32) {net : Net}
    {c : Conn} (opened : Opened net c) {ops : List Op} {s : Session}
    (run : Session.Runs (FromPeer stream c.ack) ⟨net, c, []⟩ ops s) : s.log <+: stream := by
  have init : InOrder stream c.ack c.localPort c.remotePort [] c := by
    refine ⟨rfl, rfl, List.nil_prefix, ⟨0, Nat.zero_le _, (seqAt_zero _).symm, fun _ => rfl⟩, ?_⟩
    intro i used
    rw [opened.unstored i] at used
    cases used
  have follows := run.invariant
    (P := fun s => InOrder stream c.ack c.localPort c.remotePort s.log s.conn) init
    fun {s op t} h genuine step => step ▸ h.perform short genuine
  exact follows.logged

/-- **Witness.** A stream of three bytes whose numbers wrap around after the first
is returned in two pieces. -/
theorem received_prefix_wrapping :
    ∃ s, Session.Runs (FromPeer [104, 105, 33] 0xFFFFFFFF) (demoSession 0xFFFFFFFE)
      [demoRecv 0xFFFFFFFF [104], demoRecv 0 [105, 33]] s ∧
      s.log = [104, 105, 33] ∧ s.log <+: [104, 105, 33] := by
  have opened : Opened (demoCall 0xFFFFFFFE).net (demoCall 0xFFFFFFFE).conn :=
    .connect (by decide) (by decide)
  have run : Session.Runs (FromPeer [104, 105, 33] (demoCall 0xFFFFFFFE).conn.ack)
      (demoSession 0xFFFFFFFE) [demoRecv 0xFFFFFFFF [104], demoRecv 0 [105, 33]]
      (((demoSession 0xFFFFFFFE).perform (demoRecv 0xFFFFFFFF [104])).perform
        (demoRecv 0 [105, 33])) := by
    refine .snoc (.single ?_ rfl) ?_ rfl
    · intro p hp
      obtain rfl := List.mem_singleton.mp hp
      exact fun _ _ _ _ => ⟨0, by decide, by decide⟩
    · intro p hp
      obtain rfl := List.mem_singleton.mp hp
      exact fun _ _ _ _ => ⟨1, by decide, by decide⟩
  have first : (demoCall 0xFFFFFFFE).conn.ack = 0xFFFFFFFF := by decide
  refine ⟨_, first ▸ run, by decide, ?_⟩
  exact received_prefix (by decide) opened run

end AtmKoala.Net
