import AtmKoala.Net.Tcp

/-!
Rules for the receive loops.

- `Along ok` says that every turn a loop takes meets a condition on the
  connection and the frame at that moment.
- `pollUntil_rule` and `retry_rule` carry an invariant of the connection through
  a loop and through the attempts of a handshake.
- `recv_rule` is the induction principle of `atm_tcp_recv`: what holds of the
  connection is preserved if storing a segment preserves it, and what a delivery
  establishes is established by both ways to deliver.
-/

namespace AtmKoala.Net

/-! ### Conditions along a loop -/

/-- The property of what follows a turn, if the loop goes on. -/
def Round.Then (rest : Net → Conn → Prop) : Round → Prop
  | .again net c => rest net c
  | .done .. => True

instance (rest : Net → Conn → Prop) [∀ net c, Decidable (rest net c)] :
    ∀ r : Round, Decidable (r.Then rest)
  | .again net c => inferInstanceAs (Decidable (rest net c))
  | .done .. => isTrue trivial

/-- Every turn that the loop takes meets `ok`. -/
def Along (ok : Conn → Poll → Prop) (start limit : UInt32) (turn : Net → Conn → Poll → Round) :
    Net → Conn → List Poll → Prop
  | _, _, [] => True
  | net, c, p :: polls =>
    p.test - start < limit →
      ok c p ∧ (turn net c p).Then fun net c => Along ok start limit turn net c polls

instance decidableAlong (ok : Conn → Poll → Prop) [∀ c p, Decidable (ok c p)]
    (start limit : UInt32) (turn : Net → Conn → Poll → Round) :
    ∀ polls net c, Decidable (Along ok start limit turn net c polls)
  | [], _, _ => isTrue trivial
  | p :: polls, net, c =>
    have : ∀ net c, Decidable (Along ok start limit turn net c polls) :=
      decidableAlong ok start limit turn polls
    inferInstanceAs (Decidable (p.test - start < limit →
      ok c p ∧ (turn net c p).Then fun net c => Along ok start limit turn net c polls))

variable {ok : Conn → Poll → Prop} {start limit : UInt32} {turn : Net → Conn → Poll → Round}

/-- A condition on the frames alone holds along every loop that they are fed to. -/
theorem Along.of_forall {ok : Poll → Prop} {polls : List Poll} (all : ∀ p ∈ polls, ok p)
    (net : Net) (c : Conn) : Along (fun _ p => ok p) start limit turn net c polls := by
  induction polls generalizing net c with
  | nil => trivial
  | cons p polls ih =>
    intro inTime
    refine ⟨all p List.mem_cons_self, ?_⟩
    cases turn net c p with
    | again net' c' => exact ih (fun q hq => all q (List.mem_cons_of_mem _ hq)) net' c'
    | done => trivial

/-! ### Invariants -/

/-- A turn keeps `P`, or ends the loop with `Q`. -/
def Round.Meets (P : Conn → Prop) (Q : Conn → Int → List UInt8 → Prop) : Round → Prop
  | .again _ c => P c
  | .done _ c code out => Q c code out

/-- A loop has left `P` behind, or ended by itself with `Q`. -/
def Waited.Meets (P : Conn → Prop) (Q : Conn → Int → List UInt8 → Prop) (w : Waited) : Prop :=
  match w.ending with
  | .done code out => Q w.conn code out
  | _ => P w.conn

theorem Waited.Meets.at_end {P : Conn → Prop} {w : Waited} (h : w.Meets P fun c _ _ => P c) :
    P w.conn := by
  unfold Waited.Meets at h
  split at h
  · exact h
  · exact h

/-- **Loop rule.** What every turn keeps is kept by the loop. -/
theorem pollUntil_rule {P : Conn → Prop} {Q : Conn → Int → List UInt8 → Prop}
    (kept : ∀ net c p, P c → ok c p → (turn net c p).Meets P Q) {net : Net} {c : Conn}
    {polls : List Poll} (init : P c) (along : Along ok start limit turn net c polls) :
    (pollUntil start limit turn net c polls).Meets P Q := by
  induction polls generalizing net c with
  | nil => exact init
  | cons p polls ih =>
    unfold pollUntil
    split
    · rename_i inTime
      obtain ⟨holds, rest⟩ := along inTime
      have step : (turn net c p).Meets P Q := kept net c p init holds
      cases result : turn net c p with
      | again net' c' =>
        rw [result] at step rest
        exact ih step rest
      | done net' c' code out =>
        rw [result] at step
        exact step
    · exact init

/-- A frame that does not pass the screen only reaches ARP; one that does is
used. -/
theorem screened_cases (use : Net → Conn → Poll → Round) (net : Net) (c : Conn) (p : Poll) :
    screened use net c p = .again (netRecv net p).1 c ∨
      (tcpValidateFrame p.frame p.n = true ∧
        screened use net c p = use (netRecv net p).1 c p) := by
  unfold screened
  by_cases short : (netRecv net p).2 < ethHlen + 20 + tcpHdrSize
  · exact .inl (if_pos short)
  · simp only [if_neg short]
    by_cases invalid : tcpValidateFrame p.frame (netRecv net p).2 = false
    · exact .inl (if_pos invalid)
    · refine .inr ⟨?_, if_neg invalid⟩
      have length : (netRecv net p).2 = p.n := by
        unfold netRecv at short ⊢
        split
        · rename_i none
          simp [none] at short
        · rfl
      rw [← length]
      simpa using invalid

/-- A screened use keeps `P` if the use of a valid frame does. -/
theorem screened_meets {P : Conn → Prop} {Q : Conn → Int → List UInt8 → Prop}
    {use : Net → Conn → Poll → Round} {net : Net} {c : Conn} {p : Poll} (init : P c)
    (used : ∀ {net}, tcpValidateFrame p.frame p.n = true → (use net c p).Meets P Q) :
    (screened use net c p).Meets P Q := by
  rcases screened_cases use net c p with result | ⟨valid, result⟩
  · rw [result]
    exact init
  · rw [result]
    exact used valid

/-- **Attempt rule.** What every turn keeps, whether it ends the loop or not, is
kept by a handshake and all its repetitions. -/
theorem retry_rule {P : Conn → Prop} {transmit : Net → UInt32 → Conn → Net × Bool}
    {refused exhausted : Conn → Conn}
    (kept : ∀ net c p, P c → (turn net c p).Meets P fun c _ _ => P c)
    (counted : ∀ {c}, P c → P { c with retryCount := c.retryCount + 1 })
    (onRefused : ∀ {c}, P c → P (refused c)) (onExhausted : ∀ {c}, P c → P (exhausted c))
    {k : Nat} {net : Net} {c : Conn} {tries : List Try} (init : P c) :
    P (retry transmit refused exhausted limit turn k net c tries).conn := by
  induction k generalizing net c tries with
  | zero => exact onExhausted init
  | succ k ih =>
    cases tries with
    | nil => exact init
    | cons t tries =>
      unfold retry
      split
      · exact onRefused init
      · rename_i net' _
        have along : Along (fun _ _ => True) t.start limit turn net' c t.polls :=
          Along.of_forall (fun _ _ => trivial) net' c
        have waited := pollUntil_rule (fun net c p holds _ => kept net c p holds) init along
        split
        · rename_i result
          rw [result] at waited
          exact waited
        · rename_i result
          rw [result] at waited
          exact waited
        · rename_i result
          rw [result] at waited
          exact ih (counted waited)

/-! ### The receiver -/

/-- The connection after the segment in entry `i` has been handed out. -/
def Conn.take (c : Conn) (i : Fin oooMax) : Conn :=
  { c with ack := c.ack + UInt32.ofNat (c.ooo i).data.length
           ooo := Function.update c.ooo i { c.ooo i with used := false } }

/-- The connection after a segment ahead of `ack`. -/
def Conn.keep (c : Conn) (p : Poll) : Conn :=
  { tcpOooStore c (seqOf p.frame) (payload p.frame) with peerWindow := windowOf p.frame }

/-- The connection after the segment at `ack`. -/
def Conn.deliver (c : Conn) (p : Poll) : Conn :=
  { c with ack := c.ack + UInt32.ofNat (payload p.frame).length
           peerWindow := windowOf p.frame }

/-- Entry `i` holds the segment at `ack`, and it fits the caller's buffer. -/
structure Takeable (c : Conn) (cap : UInt16) (i : Fin oooMax) : Prop where
  used : (c.ooo i).used = true
  next : (c.ooo i).seq = c.ack
  fits : (c.ooo i).data.length ≤ cap.toNat

theorem tcpOooTake_cases (c : Conn) (cap : UInt16) :
    (tcpOooTake c cap = ([], c) ∧ ∀ i, ¬Takeable c cap i) ∨
      ∃ i, Takeable c cap i ∧ tcpOooTake c cap = ((c.ooo i).data, c.take i) := by
  unfold tcpOooTake
  split
  · rename_i missing
    refine .inl ⟨rfl, fun i takeable => ?_⟩
    have refused := List.find?_eq_none.mp missing i (List.mem_finRange i)
    simp [takeable.used, takeable.next, takeable.fits] at refused
  · rename_i i found
    have accepted := List.find?_some found
    simp only [Bool.and_eq_true, beq_iff_eq, decide_eq_true_eq] at accepted
    exact .inr ⟨i, ⟨accepted.1.1, accepted.1.2, accepted.2⟩, rfl⟩

/-- Storing a segment changes nothing or fills a free entry with a segment that
is not there yet. -/
theorem tcpOooStore_cases (c : Conn) (seq : UInt32) (data : List UInt8) :
    tcpOooStore c seq data = c ∨
      ∃ i, (c.ooo i).used = false ∧ data ≠ [] ∧
        (∀ j, (c.ooo j).used = true → (c.ooo j).seq ≠ seq) ∧
        tcpOooStore c seq data = { c with ooo := Function.update c.ooo i ⟨seq, true, data⟩ } := by
  unfold tcpOooStore
  by_cases size : data.length = 0 ∨ data.length > tcpMss
  · exact .inl (if_pos size)
  rw [if_neg size]
  split
  · exact .inl rfl
  rename_i new
  split
  · exact .inl rfl
  · rename_i i found
    refine .inr ⟨i, by simpa using List.find?_some found, ?_, fun j used same => new ?_, rfl⟩
    · rintro rfl
      exact size (.inl rfl)
    · exact List.any_eq_true.mpr ⟨j, List.mem_finRange j, by simp [used, same]⟩

@[simp] theorem tcpOooStore_state (c : Conn) (seq : UInt32) (data : List UInt8) :
    (tcpOooStore c seq data).state = c.state := by
  rcases tcpOooStore_cases c seq data with same | ⟨i, _, _, _, stored⟩
  · rw [same]
  · rw [stored]

/-- A valid frame on the connection's ports with data that the window allows. -/
structure ForUs (c : Conn) (p : Poll) : Prop where
  valid : tcpValidateFrame p.frame p.n = true
  src : srcPort p.frame = c.remotePort
  dst : dstPort p.frame = c.localPort
  some : (payload p.frame).length ≠ 0
  window : (payload p.frame).length ≤ c.localWindow.toNat

/-- The end of a call that copied `out` to the caller, where `D` holds of these
bytes and the connection before the reply: the length is returned, or -1 when the
reply could not be sent. -/
def Delivers (D : List UInt8 → Conn → Prop) (c : Conn) (code : Int) (out : List UInt8) : Prop :=
  ∃ c', D out c' ∧ ((code = out.length ∧ c = c') ∨ (code = -1 ∧ c = c'.fail))

section Receiver

variable {P : Conn → Prop} {D : List UInt8 → Conn → Prop} {cap : UInt16}

/-- One use of a frame by the receiver. -/
theorem recvSegment_meets
    (store : ∀ c p, P c → c.state = .established → ok c p → ForUs c p →
      c.ack < seqOf p.frame → P (c.keep p))
    (deliver : ∀ c p, P c → c.state = .established → ok c p → ForUs c p →
      seqOf p.frame = c.ack → (payload p.frame).length ≤ cap.toNat →
      D (payload p.frame) (c.deliver p))
    (net : Net) (c : Conn) (p : Poll) (init : P c ∧ c.state = .established) (holds : ok c p)
    (valid : tcpValidateFrame p.frame p.n = true) :
    (recvSegment cap net c p).Meets (fun c => P c ∧ c.state = .established) (Delivers D) := by
  obtain ⟨before, established⟩ := init
  unfold recvSegment
  by_cases ports : srcPort p.frame ≠ c.remotePort ∨ dstPort p.frame ≠ c.localPort
  · simp only [if_pos ports]
    exact ⟨before, established⟩
  simp only [if_neg ports]
  obtain ⟨src, dst⟩ := not_or.mp ports
  by_cases size : (payload p.frame).length = 0 ∨ (payload p.frame).length > c.localWindow.toNat
  · simp only [if_pos size]
    exact ⟨before, established⟩
  simp only [if_neg size]
  have forUs : ForUs c p := ⟨valid, not_not.mp src, not_not.mp dst, fun e => size (.inl e),
    Nat.not_lt.mp fun e => size (.inr e)⟩
  by_cases ahead : seqOf p.frame > c.ack
  · simp only [if_pos ahead]
    exact ⟨store c p before established holds forUs ahead, by simp [established]⟩
  simp only [if_neg ahead]
  by_cases late : (payload p.frame).length > cap.toNat ∨ seqOf p.frame ≠ c.ack
  · simp only [if_pos late]
    exact ⟨before, established⟩
  simp only [if_neg late]
  obtain ⟨fits, next⟩ := not_or.mp late
  have done := deliver c p before established holds forUs (not_not.mp next) (Nat.not_lt.mp fits)
  split
  · exact ⟨_, done, .inr ⟨rfl, rfl⟩⟩
  · exact ⟨_, done, .inl ⟨rfl, rfl⟩⟩

/-- Every turn of the loop of a call to `atm_tcp_recv` meets `ok`. -/
def RecvAlong (ok : Conn → Poll → Prop) (net : Net) (c : Conn) (cap : UInt16) (timeout : UInt32)
    (e : RecvEnv) : Prop :=
  c.state = .established → (∀ i, ¬Takeable c cap i) →
    Along ok e.start timeout (screened (recvSegment cap)) net c e.polls

/-- **Receiver rule.** A call to `atm_tcp_recv` that delivers nothing keeps what
storing a segment keeps; a call that delivers something ends as the delivery says,
be it from the store or from the wire. -/
theorem recv_rule {net : Net} {c : Conn} {timeout : UInt32} {e : RecvEnv} (init : P c)
    (full : ∀ i, (c.ooo i).used = true → (c.ooo i).data ≠ [])
    (take : ∀ i, c.state = .established → Takeable c cap i → D (c.ooo i).data (c.take i))
    (store : ∀ c p, P c → c.state = .established → ok c p → ForUs c p →
      c.ack < seqOf p.frame → P (c.keep p))
    (deliver : ∀ c p, P c → c.state = .established → ok c p → ForUs c p →
      seqOf p.frame = c.ack → (payload p.frame).length ≤ cap.toNat →
      D (payload p.frame) (c.deliver p))
    (along : RecvAlong ok net c cap timeout e) :
    (P (atmTcpRecv net c cap timeout e).conn ∧ (atmTcpRecv net c cap timeout e).out = [] ∧
        ∀ k, (atmTcpRecv net c cap timeout e).code = some k → k = -1) ∨
      ∃ k, (atmTcpRecv net c cap timeout e).code = some k ∧
        Delivers D (atmTcpRecv net c cap timeout e).conn k (atmTcpRecv net c cap timeout e).out := by
  unfold atmTcpRecv
  by_cases rejected : cap = 0 ∨ c.state ≠ .established
  · rw [if_pos rejected]
    exact .inl ⟨init, rfl, fun k code => by simpa using code.symm⟩
  rw [if_neg rejected]
  have established : c.state = .established := not_not.mp (not_or.mp rejected).2
  rcases tcpOooTake_cases c cap with ⟨result, none⟩ | ⟨i, takeable, result⟩
  · simp only [result, List.length_nil, gt_iff_lt, Nat.lt_irrefl, if_false]
    have waited := pollUntil_rule
      (fun net c p holds okp => screened_meets (p := p) holds fun valid =>
        recvSegment_meets store deliver _ c p holds okp valid)
      ⟨init, established⟩ (along established none)
    split
    · rename_i ended
      rw [ended] at waited
      exact .inl ⟨waited.1, rfl, by simp⟩
    · rename_i ended
      rw [ended] at waited
      exact .inl ⟨waited.1, rfl, fun k code => by simpa using code.symm⟩
    · rename_i ended
      rw [ended] at waited
      exact .inr ⟨_, rfl, waited⟩
  · have some : 0 < (c.ooo i).data.length :=
      List.length_pos_iff.mpr (full i takeable.used)
    have done := take i established takeable
    simp only [result, gt_iff_lt, if_pos some]
    split
    · exact .inr ⟨_, rfl, _, done, .inr ⟨rfl, rfl⟩⟩
    · exact .inr ⟨_, rfl, _, done, .inl ⟨rfl, rfl⟩⟩

end Receiver

end AtmKoala.Net
