/-
  EnetRs.Reassembly.Handover — from the channels to the application.

  `deliver` puts a packet into the bounded queue to the application with
  `try_send` and ignores the result.  As long as the queue has room for what a
  command can release, every reliable message reaches the application in the
  order of its release; a message released while the queue is full is lost, and
  the connection goes on.

  Main results:
    * `PeerEntry.Whole`, `PeerOp.apply_whole` — an operation keeps the
      application's view of an entry complete if there is room.
    * `HostTask.released_reaches_application` — every run with room.
    * `HostTask.released_with_hole` — a run without.
-/
import EnetRs.Host.Deliveries
import EnetRs.Host.Ownership

namespace EnetRs

open MachineInt

/-! ## §1. How much one command releases. -/

namespace Channel

/-- Every message drained was waiting. -/
theorem drainLoop_length (fuel : Nat) (c : Channel) :
    (drainLoop fuel c).2.length + (drainLoop fuel c).1.incomingReliableQueue.size
      = c.incomingReliableQueue.size := by
  induction fuel generalizing c with
  | zero => exact Nat.zero_add _
  | succ fuel ih =>
      unfold drainLoop
      simp only
      split
      · next d hd =>
        have hsize := Collections.size_erase_of_some hd
        have hrest := ih { c with
          incomingReliableSeq := c.incomingReliableSeq + 1
          incomingReliableQueue := c.incomingReliableQueue.erase (c.incomingReliableSeq + 1) }
        simp only [List.length_cons] at hrest ⊢
        omega
      · exact Nat.zero_add _

/-- A reliable arrival releases nothing unless it is the one expected, and then at
most itself and everything that waits. -/
theorem receiveReliable_length (c : Channel) (seq : U16) (data : Bytes) :
    ((c.receiveReliable seq data).2 ≠ [] → c.expects seq = true)
      ∧ (c.receiveReliable seq data).2.length
          + (c.receiveReliable seq data).1.incomingReliableQueue.size
        ≤ 1 + c.incomingReliableQueue.size := by
  unfold receiveReliable
  simp only
  split
  · next heq =>
    have hdrain := drainLoop_length c.incomingReliableQueue.size { c with incomingReliableSeq := seq }
    refine ⟨fun _ => decide_eq_true heq, ?_⟩
    unfold drain
    rw [List.length_cons]
    simp only at hdrain ⊢
    omega
  · split
    · split
      · refine ⟨fun hne => absurd rfl hne, ?_⟩
        have hsize := Std.ExtTreeMap.size_insert_le (t := c.incomingReliableQueue) (k := seq) (v := data)
        simp only [List.length_nil]
        omega
      · exact ⟨fun hne => absurd rfl hne, by simp only [List.length_nil]; omega⟩
    · exact ⟨fun hne => absurd rfl hne, by simp only [List.length_nil]; omega⟩

end Channel

namespace PeerEntry

/-- The same for a message put together from fragments, which drains twice. -/
theorem releaseAssembled_length (c : Channel) (sf : SendFragmentCmd) (assembled : Bytes) :
    ((releaseAssembled c sf true assembled).2 ≠ [] → c.expects sf.startSeq = true)
      ∧ (releaseAssembled c sf true assembled).2.length ≤ 1 + c.incomingReliableQueue.size := by
  obtain ⟨hexp, hlen⟩ := c.receiveReliable_length sf.startSeq assembled
  unfold releaseAssembled
  simp only [if_true]
  split
  · next hmore =>
    have hdrain := Channel.drainLoop_length
      (c.receiveReliable sf.startSeq assembled).1.incomingReliableQueue.size
      { (c.receiveReliable sf.startSeq assembled).1 with
        incomingReliableSeq := (c.receiveReliable sf.startSeq assembled).1.incomingReliableSeq
          + (sf.fragmentCount - 1).setWidth 16 }
    have hne : (c.receiveReliable sf.startSeq assembled).2 ≠ [] := by
      intro hnil
      rw [hnil] at hmore
      cases hmore
    refine ⟨fun _ => hexp hne, ?_⟩
    unfold Channel.drain
    rw [List.length_append]
    simp only at hdrain ⊢
    omega
  · exact ⟨hexp, (Nat.le_add_right _ _).trans hlen⟩

theorem fragmentStep_length (c : Channel) (sf : SendFragmentCmd) :
    ((fragmentStep c sf true).2 ≠ [] → c.expects sf.startSeq = true)
      ∧ (fragmentStep c sf true).2.length ≤ 1 + c.incomingReliableQueue.size := by
  unfold fragmentStep
  simp only
  split
  · exact releaseAssembled_length { c with
      fragmentBuffers := c.fragmentBuffers.erase sf.startSeq } sf _
  · exact ⟨fun hne => absurd rfl hne, Nat.zero_le _⟩

/-! ## §2. The application's view of one entry. -/

/-- The reliable packets among some messages. -/
def reliableIn (msgs : List PeerMsg) : List Packet :=
  msgs.filterMap fun
    | .ok pkt => if pkt.mode = .reliable then some pkt else none
    | .error _ => none

/-- Everything reliable that was released is either in the hands of the
application, which took `taken`, or in its queue, in the order of release. -/
def Whole (taken : List PeerMsg) (p : PeerEntry) : Prop :=
  reliableIn (taken ++ p.toUser.queue) = p.delivered.filter (·.mode = .reliable)

/-- Should the message numbered `seq` be the next one of its channel, then the
queue is open and has room for it and for all that waits for it. -/
def RoomFor (p : PeerEntry) (ch : U8) (seq : U16) : Prop :=
  ∀ c, p.channels[ch.toNat]? = some c → c.expects seq = true →
    p.toUser.closed = false
      ∧ p.toUser.queue.length + c.incomingReliableQueue.size < p.toUser.capacity

instance (p : PeerEntry) (ch : U8) (seq : U16) : Decidable (p.RoomFor ch seq) :=
  match hc : p.channels[ch.toNat]? with
  | none => isTrue (by simp [RoomFor, hc])
  | some c =>
      decidable_of_iff (c.expects seq = true → p.toUser.closed = false
        ∧ p.toUser.queue.length + c.incomingReliableQueue.size < p.toUser.capacity)
        (by simp [RoomFor, hc])

variable {p q : PeerEntry} {taken : List PeerMsg}

/-- Reliable packets handed over when there is room for all of them. -/
theorem Whole.handed {pkts : List Packet} (hw : p.Whole taken) (hand : Handed p q pkts)
    (hrel : ∀ pkt ∈ pkts, pkt.mode = .reliable) (hopen : p.toUser.closed = false)
    (hroom : p.toUser.queue.length + pkts.length ≤ p.toUser.capacity) : q.Whole taken := by
  have hall : reliableIn (pkts.map .ok) = pkts := by
    unfold reliableIn
    rw [List.filterMap_map]
    exact (List.filterMap_congr fun pkt hpkt => if_pos (hrel pkt hpkt)).trans
      (List.filterMap_some)
  have hfilter : pkts.filter (·.mode = .reliable) = pkts := by
    apply List.filter_eq_self.mpr
    intro pkt hpkt
    exact decide_eq_true (hrel pkt hpkt)
  have hqueue : q.toUser.queue = p.toUser.queue ++ pkts.map .ok := by
    rw [hand.toUser, Mpsc.foldl_trySend_of_room Except.ok pkts p.toUser hopen hroom]
  unfold Whole at hw ⊢
  rw [hqueue, hand.delivered, List.filter_append, hfilter, ← hw, ← List.append_assoc]
  unfold reliableIn at hall ⊢
  rw [List.filterMap_append, hall]

/-- Packets of the other modes may be queued or lost. -/
theorem Whole.handed_other {pkts : List Packet} (hw : p.Whole taken) (hand : Handed p q pkts)
    (hrel : ∀ pkt ∈ pkts, pkt.mode ≠ .reliable) : q.Whole taken := by
  have hfilter : pkts.filter (·.mode = .reliable) = [] := by
    apply List.filter_eq_nil_iff.mpr
    intro pkt hpkt hmode
    exact hrel pkt hpkt (of_decide_eq_true hmode)
  have hqueue : reliableIn q.toUser.queue = reliableIn p.toUser.queue := by
    rw [hand.toUser]
    apply Mpsc.foldl_trySend_filterMap
    intro pkt hpkt
    exact if_neg (hrel pkt hpkt)
  unfold Whole reliableIn at hw ⊢
  unfold reliableIn at hqueue
  rw [List.filterMap_append] at hw ⊢
  rw [hqueue, hw, hand.delivered, List.filter_append, hfilter, List.append_nil]

/-- Messages of one channel that a command released. -/
theorem Whole.released {ch : U8} {seq : U16} {c : Channel} {ready : List Bytes}
    (hw : p.Whole taken) (hroom : p.RoomFor ch seq) (hc : p.channels[ch.toNat]? = some c)
    (hexp : c.expects seq = true) (hlen : ready.length ≤ 1 + c.incomingReliableQueue.size)
    (hand : Handed p q (ready.map (⟨·, ch, .reliable⟩))) : q.Whole taken := by
  obtain ⟨hopen, hfree⟩ := hroom c hc hexp
  apply hw.handed hand _ hopen
  · rw [List.length_map]
    omega
  · intro pkt hpkt
    obtain ⟨data, -, rfl⟩ := List.mem_map.mp hpkt
    rfl

end PeerEntry

namespace PeerOp

/-- The operation takes nothing from the queue, and a reliable message that it
brings finds room there. -/
def FindsRoom (p : PeerEntry) : PeerOp → Prop
  | recvReliable ch seq _ => p.RoomFor ch seq
  | recvFragment ch sf true => p.RoomFor ch sf.startSeq
  | appRecv => False
  | _ => True

/-- **An operation that finds room keeps the view whole.** -/
theorem apply_whole {nowMs : U32} {p : PeerEntry} {o : PeerOp} {taken : List PeerMsg}
    (hw : p.Whole taken) (hroom : o.FindsRoom p) :
    (o.apply nowMs p).Whole taken := by
  have hnone : ∀ {q : PeerEntry}, p.Handed q [] → q.Whole taken := by
    intro q hand
    exact hw.handed_other hand (by simp)
  -- what the other operations hand over is not reliable
  have hother : ¬ o.TouchesQueue → (∀ pkt, o.Hands pkt → pkt.mode ≠ .reliable) →
      (o.apply nowMs p).Whole taken := by
    intro hqueue hmode
    obtain ⟨pkts, hall, hdel, hto⟩ := apply_hands nowMs p o
    exact hw.handed_other ⟨hdel, hto hqueue⟩ fun pkt hpkt => hmode pkt (hall pkt hpkt)
  cases o with
  | recvReliable ch seq data =>
      obtain ⟨ready, hand, hready⟩ := p.onSendReliable_handed ch seq data nowMs
      by_cases hempty : ready = []
      · rw [hempty] at hand
        exact hnone hand
      · obtain ⟨c, hc, heq⟩ := hready hempty
        obtain ⟨hexp, hlen⟩ := c.receiveReliable_length seq data
        rw [← heq] at hexp hlen
        exact hw.released hroom hc (hexp hempty) (by omega) hand
  | recvFragment ch sf reliable =>
      cases reliable with
      | false =>
          apply hother (fun hf => hf)
          intro pkt hpkt
          rw [hpkt.1]
          decide
      | true =>
          obtain ⟨ready, hand, hready⟩ := p.onFragment_handed ch sf true nowMs
          by_cases hempty : ready = []
          · rw [hempty] at hand
            exact hnone hand
          · obtain ⟨c, hc, heq⟩ := hready hempty
            obtain ⟨hexp, hlen⟩ := PeerEntry.fragmentStep_length c sf
            rw [← heq] at hexp hlen
            exact hw.released hroom hc (hexp hempty) hlen hand
  | recvUnreliable ch rseq useq data =>
      apply hother (fun hf => hf)
      intro pkt hpkt
      rw [hpkt.1]
      decide
  | recvUnsequenced group data =>
      apply hother (fun hf => hf)
      intro pkt hpkt
      have hpkt : pkt = ⟨data, 0, .unsequenced⟩ := hpkt
      rw [hpkt]
      exact nofun
  | notify data =>
      have hsame : PeerEntry.reliableIn (taken ++ (p.toUser.trySend (.error data)).queue)
          = PeerEntry.reliableIn (taken ++ p.toUser.queue) := by
        unfold Mpsc.trySend
        split
        · simp [PeerEntry.reliableIn]
        · rfl
      exact hsame.trans hw
  | appRecv => exact hroom.elim
  | appDrop => exact hw
  | _ => exact hother (fun hf => hf) fun _ hf => hf.elim

end PeerOp

/-! ## §3. Every run. -/

namespace HostTask

variable {h h' : HostTask} {nowMs : U32}

/-- What the application takes from the queue of connection `conn` in a step. -/
def takenBy (conn : Nat) (h : HostTask) : Input → List PeerMsg
  | .appRecv k =>
      match h.peer k with
      | some p => if p.conn = conn then p.toUser.queue.head?.toList else []
      | none => []
  | _ => []

/-- What the application takes from that queue along a run. -/
def taken (conn : Nat) : HostTask → List Timed → List PeerMsg
  | _, [] => []
  | h, i :: is =>
      match h.timedStep i with
      | none => []
      | some h' => takenBy conn h i.2 ++ taken conn h' is

/-- Every entry is whole, given what was taken from each connection. -/
def AllWhole (taken : Nat → List PeerMsg) (h : HostTask) : Prop :=
  (∀ conn, h.nextConn ≤ conn → taken conn = [])
    ∧ ∀ k p, h.peer k = some p → p.Whole (taken p.conn)

theorem AllWhole.label {taken : Nat → List PeerMsg} {l : Label} (hi : h.AllWhole taken)
    (hg : l.Guard nowMs h)
    (hl : ∀ k p o, l = .op k o → h.peer k = some p → o.FindsRoom p) :
    (l.apply nowMs h).AllWhole taken := by
  constructor
  · intro conn hconn
    exact hi.1 conn ((nextConn_le nowMs h l).trans hconn)
  · apply Label.entries hg _ _ hi.2
    · -- a new connection has delivered nothing, and nothing was taken from it
      intro slot entry _ hnew
      have hnext := hi.1 entry.conn (Nat.le_of_eq hnew.conn.1.symm)
      have hfresh : entry.toUser.queue = [] ∧ entry.delivered = [] := by
        rcases hnew with ⟨addr, count, data, reply, id, rfl⟩ | ⟨c, hdr, src, rfl⟩ <;>
          exact ⟨rfl, rfl⟩
      unfold PeerEntry.Whole
      rw [hnext, hfresh.1, hfresh.2]
      rfl
    · intro k p o hop hp hw _
      rw [(PeerOp.sameConnection nowMs p o).conn]
      exact PeerOp.apply_whole hw (hl k p o hop hp)

/-- The application takes a message: it moves from the queue into its hands. -/
theorem AllWhole.appRecv {taken : Nat → List PeerMsg} (hi : h.AllWhole taken) (ho : Owned h)
    (k : PeerKey) (hs : h.step nowMs (.appRecv k) = some h') :
    h'.AllWhole fun conn => taken conn ++ takenBy conn h (.appRecv k) := by
  cases hs
  cases hp : h.peer k with
  | none =>
      have hnone : ∀ conn, takenBy conn h (.appRecv k) = [] := by
        intro conn
        simp [takenBy, hp]
      simp only [hnone, List.append_nil, updatePeer_of_none hp]
      exact hi
  | some p =>
      have htaken : ∀ conn, takenBy conn h (.appRecv k)
          = if p.conn = conn then p.toUser.queue.head?.toList else [] := by
        intro conn
        simp [takenBy, hp]
      simp only [htaken]
      constructor
      · intro conn hconn
        rw [updatePeer_nextConn] at hconn
        have hlt := ho.lt k p hp
        have hne : p.conn ≠ conn := by omega
        show taken conn ++ (if p.conn = conn then _ else _) = []
        rw [if_neg hne, List.append_nil]
        exact hi.1 conn hconn
      · intro j q hq
        rw [peer_updatePeer] at hq
        split at hq
        · obtain ⟨r, hr, rfl⟩ := Option.map_eq_some_iff.mp hq
          cases hp.symm.trans hr
          -- head and tail make up the queue as it was
          show PeerEntry.reliableIn ((taken p.conn ++ if p.conn = p.conn then _ else _)
            ++ p.toUser.queue.tail) = _
          have hqueue : p.toUser.queue.head?.toList ++ p.toUser.queue.tail = p.toUser.queue := by
            cases p.toUser.queue <;> rfl
          rw [if_pos rfl, List.append_assoc, hqueue]
          exact hi.2 k p hp
        · next hjk =>
          have hne : p.conn ≠ q.conn := by
            intro heq
            exact hjk (ho.inj j k q p hq hp heq.symm)
          show q.Whole (taken q.conn ++ if p.conn = q.conn then _ else _)
          rw [if_neg hne, List.append_nil]
          exact hi.2 j q hq

/-- The channel and the number of the message that a reliable data command belongs to. -/
def messageNumber (cmd : Command) : Option (U8 × U16) :=
  match cmd.body with
  | .sendReliable _ => some (cmd.header.channelId, cmd.header.reliableSeq)
  | .sendFragment sf => some (cmd.header.channelId, sf.startSeq)
  | _ => none

/-- The condition on the commands of a run: a SEND_RELIABLE or SEND_FRAGMENT that
is processed for an entry finds room in its queue. -/
def FindsRoom (h : HostTask) (key : Option PeerKey) (_src : SocketAddr) (cmd : Command) : Prop :=
  ∀ p ch seq, key.bind h.peer = some p → messageNumber cmd = some (ch, seq) → p.RoomFor ch seq

instance (h : HostTask) (key : Option PeerKey) (src : SocketAddr) (cmd : Command) :
    Decidable (FindsRoom h key src cmd) :=
  match hp : key.bind h.peer, hn : messageNumber cmd with
  | some p, some (ch, seq) => decidable_of_iff (p.RoomFor ch seq) (by simp [FindsRoom, hp, hn])
  | none, _ => isTrue (by simp [FindsRoom, hp])
  | _, none => isTrue (by simp [FindsRoom, hn])

theorem FindsRoom.op {h h₁ : HostTask} {key : Option PeerKey} {src : SocketAddr} {cmd : Command}
    {k : PeerKey} {p : PeerEntry} {o : PeerOp} (hroom : FindsRoom h key src cmd)
    (hl : cmd.Makes h key src nowMs h₁ (.op k o)) (hp : h₁.peer k = some p) : o.FindsRoom p := by
  cases o with
  | recvReliable ch seq data =>
      obtain ⟨rfl, rfl, -, hbody, rfl, rfl⟩ := hl
      exact hroom p _ _ hp (by simp [messageNumber, hbody])
  | recvFragment ch sf reliable =>
      cases reliable with
      | false => trivial
      | true =>
          obtain ⟨rfl, rfl, -, hbody, rfl⟩ := hl
          exact hroom p _ _ hp (by simp [messageNumber, hbody])
  | appRecv => exact hl.2.2.elim
  | _ => trivial

/-! Nothing else that the task does touches the queue. -/

theorem findsRoom_of_send {h₁ : HostTask} {key k : PeerKey} {pkt : Packet} {o : PeerOp}
    (hl : SendMakes h key pkt h₁ (.op k o)) (p : PeerEntry) : o.FindsRoom p := by
  cases o with
  | recvReliable | recvFragment | appRecv => exact hl.2.2.elim
  | _ => trivial

theorem findsRoom_of_internal {k : PeerKey} {o : PeerOp} (hl : (Label.op k o).Internal h)
    (p : PeerEntry) : o.FindsRoom p := by
  cases o with
  | recvReliable | recvFragment | appRecv => exact hl.elim
  | _ => trivial

theorem findsRoom_of_handles {o : PeerOp} (hl : o.Handles) (p : PeerEntry) : o.FindsRoom p := by
  cases o with
  | recvReliable | recvFragment | appRecv => exact hl.elim
  | _ => trivial

/-- **One step** whose commands find room. -/
theorem AllWhole.step {taken : Nat → List PeerMsg} {i : Input} (hi : h.AllWhole taken)
    (ho : Owned h) (hm : StepMeets FindsRoom (fun _ _ _ => True) h (nowMs, i))
    (hs : h.step nowMs i = some h') :
    h'.AllWhole fun conn => taken conn ++ takenBy conn h i := by
  by_cases hrecv : ∃ k, i = .appRecv k
  · obtain ⟨k, rfl⟩ := hrecv
    exact hi.appRecv ho k hs
  · have hnone : ∀ conn, takenBy conn h i = [] := by
      intro conn
      unfold takenBy
      split
      · next k => exact absurd ⟨k, rfl⟩ hrecv
      · rfl
    simp only [hnone, List.append_nil]
    have e : Exec nowMs (fun h l => ∀ k p o, l = .op k o → h.peer k = some p → o.FindsRoom p)
        h h' := by
      apply step_exec_of_app i hm _ _ _ _ _ _ _ _ hs
      · intro h key src cmd h₁ l hroom hl k p o heq hp
        rw [heq] at hl
        exact hroom.op hl hp
      · intro h key pkt h₁ l _ hl k p o heq _
        rw [heq] at hl
        exact findsRoom_of_send hl p
      · intro h l hl _ k p o heq _
        rw [heq] at hl
        exact findsRoom_of_internal hl p
      · intro h k o hl k' p o' heq _
        cases heq
        exact findsRoom_of_handles hl p
      · intro addr count data reply id _ slot k p o heq
        cases heq
      · intro k hik
        exact absurd ⟨k, hik⟩ hrecv
      · intro k _ k' p o heq _
        cases heq
        trivial
      · intro _
        constructor <;>
        · intro k p o heq
          cases heq
    exact e.invariant (AllWhole taken) (fun _ _ hi hg hl => hi.label hg hl) hi

theorem AllWhole.run (is : List Timed) :
    ∀ (h h' : HostTask) (before : Nat → List PeerMsg), h.AllWhole before → Owned h →
      Transition.Meets timedStep (StepMeets FindsRoom fun _ _ _ => True) h is →
      h.run is = some h' → h'.AllWhole fun conn => before conn ++ taken conn h is := by
  induction is with
  | nil =>
      intro h h' before hi _ _ hrun
      cases hrun
      simpa [taken] using hi
  | cons i is ih =>
      intro h h' before hi ho hm hrun
      obtain ⟨h₁, hs, hrest⟩ := Transition.run_cons_eq_some.mp hrun
      obtain ⟨nowMs, i⟩ := i
      have hi₁ := hi.step ho hm.1 hs
      have hi' := ih h₁ h' _ hi₁ (ho.exec (step_exec_true hs)) (hm.2 h₁ hs) hrest
      simp only [taken, hs]
      simpa only [List.append_assoc] using hi'

/-- A DISCONNECT from the peer ends the connection; the event is placed if there
is room for it. -/
theorem onDisconnect_ends {k : PeerKey} {p : PeerEntry} (hp : h.peer k = some p)
    (hst : p.state ≠ .acknowledgingConnect) (hdr : CommandHeader) (sentTime : Option U16)
    (data : U32) :
    (h.onDisconnect k hdr sentTime data nowMs).peer k = none
      ∧ ∃ es, (h.onDisconnect k hdr sentTime data nowMs).trace
        = h.trace ++ es ++ [.disconnected p.conn (some data) p.toUser.hasRoom] := by
  have hgo : (h.peer k).map (·.state) ≠ some .acknowledgingConnect := by
    rw [hp]
    exact fun heq => hst (Option.some.inj heq)
  unfold onDisconnect
  rw [if_neg hgo]
  constructor
  · rw [peer_removePeer, if_pos rfl]
  · simp only [removePeer_trace]
    split
    · next st _ =>
      have hemit := emitByKey_of_some hp
        (List.cons_ne_nil (ack hdr.channelId hdr.reliableSeq st) []) nowMs
      have hp₁ : (h.emitByKey k [ack hdr.channelId hdr.reliableSeq st] nowMs).peer k
          = some { p with lastSendTime := nowMs } := by
        rw [hemit]
        exact peer_setPeer_self (lt_of_peer_eq_some hp)
      rw [trace_notifyDisconnect hp₁, hemit]
      exact ⟨_, rfl⟩
    · rw [trace_notifyDisconnect hp]
      exact ⟨[], by rw [List.append_nil]⟩

/-- **What is released reaches the application.**  In every run in which a reliable
command finds room in the queue to the application, every reliable payload an
entry has released was placed there, in the order of release, and a DISCONNECT
ends the connection. -/
theorem released_reaches_application (acceptCapacity maxPeers : Nat) (useChecksum : Bool)
    (incomingBandwidth outgoingBandwidth : U32) {is : List Timed} {h : HostTask}
    (hrun : (HostTask.new acceptCapacity maxPeers useChecksum incomingBandwidth
      outgoingBandwidth).run is = some h)
    (hm : Transition.Meets timedStep (StepMeets FindsRoom fun _ _ _ => True)
      (HostTask.new acceptCapacity maxPeers useChecksum incomingBandwidth outgoingBandwidth) is)
    (k : PeerKey) (p : PeerEntry) (hp : h.peer k = some p) :
    PeerEntry.reliableIn (taken p.conn (HostTask.new acceptCapacity maxPeers useChecksum
        incomingBandwidth outgoingBandwidth) is ++ p.toUser.queue)
      = p.delivered.filter (·.mode = .reliable)
    ∧ ∀ hdr sentTime data nowMs, p.state ≠ .acknowledgingConnect →
      (h.onDisconnect k hdr sentTime data nowMs).peer k = none
        ∧ ∃ es, (h.onDisconnect k hdr sentTime data nowMs).trace
          = h.trace ++ es ++ [.disconnected p.conn (some data) p.toUser.hasRoom] := by
  constructor
  · have hnew : (HostTask.new acceptCapacity maxPeers useChecksum incomingBandwidth
        outgoingBandwidth).AllWhole fun _ => [] := ⟨fun _ _ => rfl, by simp⟩
    have hwhole := hnew.run is _ h _ (Owned.new _ _ _ _ _) hm hrun
    exact hwhole.2 k p hp
  · intro hdr sentTime data nowMs hst
    exact onDisconnect_ends hp hst hdr sentTime data

/-- A reliable message of one byte on channel 0, as a client sends it. -/
def byteCommand (seq : U16) (b : U8) : Bytes :=
  encodeCommand cmdSendReliable commandFlagAcknowledge 0 seq (be16 1 ++ [b])

/-- Alice connects and sends two messages; the application takes the first one
before the second one arrives. -/
def aliceIsRead : List Timed :=
  aliceConnects 10 ++
    [(30, .datagram (peerDatagram 0 9 [byteCommand 1 5]) alice), (40, .appRecv 0),
     (50, .datagram (peerDatagram 0 9 [byteCommand 2 6]) alice)]

theorem released_reaches_application_alice :
    ∃ h p, (bind 4 false 0 0).run aliceIsRead = some h ∧ h.peer 0 = some p
      ∧ taken p.conn (bind 4 false 0 0) aliceIsRead = [.ok (bytePacket 5)]
      ∧ PeerEntry.reliableIn (taken p.conn (bind 4 false 0 0) aliceIsRead ++ p.toUser.queue)
        = [bytePacket 5, bytePacket 6] := by
  have hrun : ((bind 4 false 0 0).run aliceIsRead).any (fun h => (h.peer 0).any fun p =>
      decide (taken p.conn (bind 4 false 0 0) aliceIsRead = [.ok (bytePacket 5)]
        ∧ p.delivered.filter (·.mode = .reliable) = [bytePacket 5, bytePacket 6])) = true := by
    decide +kernel
  have hmeets : Transition.Meets timedStep (StepMeets FindsRoom fun _ _ _ => True)
      (bind 4 false 0 0) aliceIsRead := by
    decide +kernel
  obtain ⟨h, hh, hrest⟩ := (Option.any_eq_true _ _).mp hrun
  simp only [Option.any_eq_true, decide_eq_true_eq] at hrest
  obtain ⟨p, hp, htaken, hdel⟩ := hrest
  have hwhole := released_reaches_application 64 4 false 0 0 hh hmeets 0 p hp
  exact ⟨h, p, hh, hp, htaken, hwhole.1.trans hdel⟩

theorem taken_append {conn : Nat} (is js : List Timed) :
    ∀ h h₁ : HostTask, h.run is = some h₁ →
      taken conn h (is ++ js) = taken conn h is ++ taken conn h₁ js := by
  induction is with
  | nil =>
      intro h h₁ hrun
      cases hrun
      rfl
  | cons i is ih =>
      intro h h₁ hrun
      obtain ⟨h₂, hs, hrest⟩ := Transition.run_cons_eq_some.mp hrun
      simp only [List.cons_append, taken, hs, List.append_assoc]
      rw [ih h₂ h₁ hrest]

theorem taken_of_unread {conn : Nat} (is : List Timed) (hno : ∀ i ∈ is, ∀ k, i.2 ≠ .appRecv k) :
    ∀ h : HostTask, taken conn h is = [] := by
  induction is with
  | nil => exact fun _ => rfl
  | cons i is ih =>
      intro h
      have hnone : takenBy conn h i.2 = [] := by
        unfold takenBy
        split
        · next k heq => exact absurd heq (hno i List.mem_cons_self k)
        · rfl
      unfold taken
      split
      · rfl
      · rw [hnone, ih fun j hj => hno j (List.mem_cons_of_mem _ hj)]
        rfl

/-- Alice sends eight full datagrams of messages and one message more, which the
application does not read. -/
def aliceFloods : List Timed :=
  aliceConnects 10
    ++ (List.range 8).map (fun d => (100, .datagram (peerDatagram 0 9 ((List.range 32).map fun i =>
        byteCommand (BitVec.ofNat 16 (32 * d + i + 1)) (BitVec.ofNat 8 d))) alice))
    ++ [(110, .datagram (peerDatagram 0 9 [byteCommand 257 8]) alice)]

/-- Then the application takes a message, and another one arrives. -/
def aliceGoesOn : List Timed :=
  [(120, .appRecv 0), (130, .datagram (peerDatagram 0 9 [byteCommand 258 9]) alice)]

/-- **A hole in the reliable stream.**  The queue holds 256 messages; the next one
released is lost, and the connection goes on with the one after it. -/
theorem released_with_hole :
    ∃ h p, (bind 4 false 0 0).run (aliceFloods ++ aliceGoesOn) = some h ∧ h.peer 0 = some p
      ∧ p.state = .connected
      ∧ (p.delivered.filter (·.mode = .reliable)).map (·.data)
        = (List.range 256).map (fun i => [BitVec.ofNat 8 (i / 32)]) ++ [[8], [9]]
      ∧ (PeerEntry.reliableIn (taken p.conn (bind 4 false 0 0) (aliceFloods ++ aliceGoesOn)
          ++ p.toUser.queue)).map (·.data)
        = (List.range 256).map (fun i => [BitVec.ofNat 8 (i / 32)]) ++ [[9]] := by
  have hrun : ((bind 4 false 0 0).run aliceFloods).any (fun h₁ => (h₁.run aliceGoesOn).any fun h =>
      (h.peer 0).any fun p => decide (p.state = .connected
        ∧ (p.delivered.filter (·.mode = .reliable)).map (·.data)
          = (List.range 256).map (fun i => [BitVec.ofNat 8 (i / 32)]) ++ [[8], [9]]
        ∧ (PeerEntry.reliableIn (taken p.conn h₁ aliceGoesOn ++ p.toUser.queue)).map (·.data)
          = (List.range 256).map (fun i => [BitVec.ofNat 8 (i / 32)]) ++ [[9]])) = true := by
    decide +kernel
  have hunread : ∀ i ∈ aliceFloods, ∀ k, i.2 ≠ .appRecv k := by
    intro i hi k heq
    simp only [aliceFloods, aliceConnects, List.mem_append, List.mem_map, List.mem_cons,
      List.not_mem_nil, or_false] at hi
    rcases hi with ((rfl | rfl) | ⟨d, -, rfl⟩) | rfl <;> cases heq
  obtain ⟨h₁, hh₁, hrest⟩ := (Option.any_eq_true _ _).mp hrun
  simp only [Option.any_eq_true, decide_eq_true_eq] at hrest
  obtain ⟨h, hh, p, hp, hst, hdel, hgot⟩ := hrest
  refine ⟨h, p, Transition.run_append.mpr ⟨h₁, hh₁, hh⟩, hp, hst, hdel, ?_⟩
  rw [taken_append _ _ _ h₁ hh₁, taken_of_unread _ hunread]
  exact hgot

end HostTask

end EnetRs
