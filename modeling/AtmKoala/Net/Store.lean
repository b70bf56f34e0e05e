import AtmKoala.Lib.SeqSpace
import AtmKoala.Net.Session

/-!
The out-of-order store.

`Fresh` is what the store is for: every used entry holds data whose number is not
behind `ack`, so that it will be handed out when `ack` gets there. Entries are
only freed when `ack` equals their number, so the store stays fresh as long as
`ack` does not step over an entry (`TidyTake`, and `Tidy` for the frame at
`ack`), and as long as what is stored as ahead of `ack` is ahead of it modulo
2^32 (`Tidy`), which the plain comparison of the code does not ensure near the
wrap-around.
-/

namespace AtmKoala.Net

open Lib

/-- Every used entry holds data that is still to come. -/
structure Fresh (c : Conn) : Prop where
  full : ∀ i, (c.ooo i).used = true → (c.ooo i).data ≠ []
  ahead : ∀ i, (c.ooo i).used = true → Ahead c.ack (c.ooo i).seq

/-- Handing out an entry does not step over another one. -/
def TidyTake (c : Conn) (cap : UInt16) : Prop :=
  ∀ i, Takeable c cap i → ∀ j, j ≠ i → (c.ooo j).used = true →
    (c.ooo i).data.length ≤ distance c.ack (c.ooo j).seq

/-- A frame for the connection that looks ahead is ahead, unless the store is
full, and one that is delivered does not step over an entry. -/
def Tidy (cap : UInt16) (c : Conn) (p : Poll) : Prop :=
  ForUs c p →
    (c.ack < seqOf p.frame → (∃ i, (c.ooo i).used = false) → Ahead c.ack (seqOf p.frame)) ∧
    (seqOf p.frame = c.ack → (payload p.frame).length ≤ cap.toNat →
      ∀ i, (c.ooo i).used = true → (payload p.frame).length ≤ distance c.ack (c.ooo i).seq)

/-- The condition on a call: what it hands out and every frame it meets is tidy. -/
def TidyOp (s : Session) : Op → Prop
  | .recv cap timeout e =>
    TidyTake s.conn cap ∧ RecvAlong (Tidy cap) s.net s.conn cap timeout e
  | _ => True

namespace Fresh

variable {c c' : Conn}

theorem untouched (h : Fresh c) (same : Untouched c c') : Fresh c' := by
  refine ⟨?_, ?_⟩
  · rw [same.ooo]
    exact h.full
  · rw [same.ooo, same.ack]
    exact h.ahead

theorem take {cap : UInt16} {i : Fin oooMax} (h : Fresh c) (tidy : TidyTake c cap)
    (takeable : Takeable c cap i) : Fresh (c.take i) := by
  have others : ∀ j, ((c.take i).ooo j).used = true → j ≠ i ∧ (c.take i).ooo j = c.ooo j := by
    intro j used
    by_cases same : j = i
    · subst same
      simp [Conn.take] at used
    · exact ⟨same, by simp [Conn.take, same]⟩
  refine ⟨fun j used => ?_, fun j used => ?_⟩
  · obtain ⟨-, same⟩ := others j used
    rw [same] at used ⊢
    exact h.full j used
  · obtain ⟨ne, same⟩ := others j used
    rw [same] at used ⊢
    exact (h.ahead j used).add (tidy i takeable j ne used)

theorem deliver {cap : UInt16} {p : Poll} (h : Fresh c) (tidy : Tidy cap c p)
    (forUs : ForUs c p) (next : seqOf p.frame = c.ack)
    (fits : (payload p.frame).length ≤ cap.toNat) : Fresh (c.deliver p) :=
  ⟨h.full, fun i used => (h.ahead i used).add ((tidy forUs).2 next fits i used)⟩

theorem keep {cap : UInt16} {p : Poll} (h : Fresh c) (tidy : Tidy cap c p) (forUs : ForUs c p)
    (looksAhead : c.ack < seqOf p.frame) : Fresh (c.keep p) := by
  unfold Conn.keep
  rcases tcpOooStore_cases c (seqOf p.frame) (payload p.frame) with
    same | ⟨i, free, some, -, result⟩
  · rw [same]
    exact ⟨h.full, h.ahead⟩
  · rw [result]
    refine ⟨fun j used => ?_, fun j used => ?_⟩
    · by_cases new : j = i
      · subst new
        simpa using some
      · simp only [ne_eq, new, not_false_eq_true, Function.update_of_ne] at used ⊢
        exact h.full j used
    · by_cases new : j = i
      · subst new
        simpa using (tidy forUs).1 looksAhead ⟨j, free⟩
      · simp only [ne_eq, new, not_false_eq_true, Function.update_of_ne] at used ⊢
        exact h.ahead j used

/-- **One call.** A tidy call keeps the store fresh. -/
theorem perform {s : Session} {op : Op} (h : Fresh s.conn) (tidy : TidyOp s op) :
    Fresh (s.perform op).conn := by
  cases op with
  | send data e => exact h.untouched (atmTcpSend_untouched s.net s.conn data e)
  | close now => exact h.untouched (atmTcpClose_untouched s.net s.conn now)
  | recv cap timeout e =>
    have received := recv_rule (D := fun _ c => Fresh c) h h.full
      (fun i _ takeable => h.take tidy.1 takeable)
      (fun c p h _ ok forUs looksAhead => h.keep ok forUs looksAhead)
      (fun c p h _ ok forUs next fits => h.deliver ok forUs next fits) tidy.2
    rcases received with ⟨kept, -⟩ | ⟨k, -, c', done, sent | failed⟩
    · exact kept
    · simp only [Session.perform, sent.2]
      exact done
    · simp only [Session.perform, failed.2]
      exact ⟨done.full, done.ahead⟩

end Fresh

/-- `POLLIN` is reported for a used entry. -/
theorem nativeSocketPoll_in {c : Conn} {events : UInt16}
    (ready : nativeSocketPoll (some c) events &&& 1 ≠ 0) : ∃ i, (c.ooo i).used = true := by
  by_contra none
  have unused : ∀ i, (c.ooo i).used = false := fun i => by
    cases used : (c.ooo i).used with
    | false => rfl
    | true => exact absurd ⟨i, used⟩ none
  apply ready
  simp only [nativeSocketPoll, unused]
  split
  · rfl
  · simp only [List.any_eq_true, Bool.false_eq_true, and_false, exists_false, if_false]
    split
    · split
      · rfl
      · rfl
    · split
      · rfl
      · rfl

/-- **Store hygiene.** On a connection just opened, in every run of tidy calls, no
used entry is behind `ack`, and `POLLIN` is only raised for data still to come. -/
theorem store_fresh {net : Net} {c : Conn} (opened : Opened net c) {log : List UInt8}
    {ops : List Op} {s : Session} (run : Session.Runs TidyOp ⟨net, c, log⟩ ops s) :
    (∀ i, (s.conn.ooo i).used = true → Ahead s.conn.ack (s.conn.ooo i).seq) ∧
      ∀ events, nativeSocketPoll (some s.conn) events &&& 1 ≠ 0 →
        ∃ i, (s.conn.ooo i).used = true ∧ Ahead s.conn.ack (s.conn.ooo i).seq := by
  have init : Fresh c := by
    refine ⟨fun i used => ?_, fun i used => ?_⟩
    · rw [opened.unstored i] at used
      cases used
    · rw [opened.unstored i] at used
      cases used
  have fresh := run.invariant (P := fun s => Fresh s.conn) init
    fun {s op t} h tidy step => step ▸ h.perform tidy
  refine ⟨fresh.ahead, fun events ready => ?_⟩
  obtain ⟨i, used⟩ := nativeSocketPoll_in ready
  exact ⟨i, used, fresh.ahead i used⟩

/-! ### Runs -/

/-- Receive into a large buffer while two segments arrive from the neighbour. -/
def demoRecvTwo (seq : UInt32) (data : List UInt8) (seq' : UInt32) (data' : List UInt8) : Op :=
  .recv 512 100 ⟨0, 0, [demoPoll ⟨10, 0, 0, 2⟩ seq 0xC0000001 tcpAck data,
    demoPoll ⟨10, 0, 0, 2⟩ seq' 0xC0000001 tcpAck data']⟩

/-- **Counterexample.** The stream "abcd" starts at number 1. Its third byte comes
first and is stored under 3; then all four bytes come in one segment. They are
delivered, `ack` is 5, and the store keeps the entry and raises `POLLIN` for it. -/
theorem store_keeps_old :
    ∃ s, Session.Runs Anything (demoSession 0) [demoRecvTwo 3 [99] 1 [97, 98, 99, 100]] s ∧
      s.log = [97, 98, 99, 100] ∧ (s.conn.ooo 0).used = true ∧
      ¬Ahead s.conn.ack (s.conn.ooo 0).seq ∧ nativeSocketPoll (some s.conn) 1 &&& 1 ≠ 0 :=
  ⟨_, .single trivial rfl, by decide, by decide, by decide,
    by decide⟩

instance (c : Conn) (p : Poll) : Decidable (ForUs c p) :=
  decidable_of_iff (tcpValidateFrame p.frame p.n = true ∧ srcPort p.frame = c.remotePort ∧
      dstPort p.frame = c.localPort ∧ (payload p.frame).length ≠ 0 ∧
      (payload p.frame).length ≤ c.localWindow.toNat)
    ⟨fun h => ⟨h.1, h.2.1, h.2.2.1, h.2.2.2.1, h.2.2.2.2⟩,
      fun h => ⟨h.valid, h.src, h.dst, h.some, h.window⟩⟩

instance (c : Conn) (cap : UInt16) (i : Fin oooMax) : Decidable (Takeable c cap i) :=
  decidable_of_iff ((c.ooo i).used = true ∧ (c.ooo i).seq = c.ack ∧
      (c.ooo i).data.length ≤ cap.toNat)
    ⟨fun h => ⟨h.1, h.2.1, h.2.2⟩, fun h => ⟨h.used, h.next, h.fits⟩⟩

instance (c : Conn) (cap : UInt16) : Decidable (TidyTake c cap) :=
  inferInstanceAs (Decidable (∀ _, _))

instance (cap : UInt16) (c : Conn) (p : Poll) : Decidable (Tidy cap c p) :=
  inferInstanceAs (Decidable (_ → _))

instance (ok : Conn → Poll → Prop) [∀ c p, Decidable (ok c p)] (net : Net) (c : Conn)
    (cap : UInt16) (timeout : UInt32) (e : RecvEnv) :
    Decidable (RecvAlong ok net c cap timeout e) :=
  inferInstanceAs (Decidable (_ → _))

/-- **Witness.** A segment that comes too early is kept and is ahead. -/
theorem store_fresh_early :
    ∃ s, Session.Runs TidyOp (demoSession 0) [demoRecvTwo 3 [99] 1 [97, 98]] s ∧
      (s.conn.ooo 0).used = true ∧
      ∀ i, (s.conn.ooo i).used = true → Ahead s.conn.ack (s.conn.ooo i).seq := by
  have opened : Opened (demoCall 0).net (demoCall 0).conn :=
    .connect (by decide) (by decide)
  have tidy : TidyOp (demoSession 0) (demoRecvTwo 3 [99] 1 [97, 98]) :=
    ⟨by decide, by decide⟩
  have run : Session.Runs TidyOp (demoSession 0) [demoRecvTwo 3 [99] 1 [97, 98]]
      ((demoSession 0).perform (demoRecvTwo 3 [99] 1 [97, 98])) := .single tidy rfl
  exact ⟨_, run, by decide, (store_fresh opened run).1⟩

end AtmKoala.Net
