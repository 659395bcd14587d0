/-
  EnetRs.Exchange.Reference — messages numbered by the reference C sender.

  `enet_peer_setup_outgoing_command` (`original/peer.c`) starts the unreliable
  numbers of a channel again at 0 with every reliable message.  The receiver of
  this crate keeps one unreliable number per channel and never takes it back,
  so after a reliable message the unreliable ones look like old duplicates,
  until their numbers pass the last one accepted.

  Main results:
    * `accepted_eq_iff` — which patterns of messages lose nothing, by the
      lengths of their runs of unreliable messages.
    * `receiveFrom_delivers` — what the receiver delivers of any sequence.
    * `HostTask.reference_unreliable_iff` — when everything is delivered.
-/
import EnetRs.Reassembly.Commands

namespace EnetRs

open MachineInt

/-! ## §1. The reference sender. -/

namespace Reference

/-- A message small enough for one command. -/
inductive Message where
  | reliable (data : Bytes)
  | unreliable (data : Bytes)
  deriving DecidableEq, Repr

/-- `outgoingReliableSequenceNumber` and `outgoingUnreliableSequenceNumber` of
an `ENetChannel`. -/
structure OutgoingNumbers where
  reliable : U16
  unreliable : U16

/-- `enet_peer_setup_outgoing_command` for a message on a data channel: the
counters afterwards and the command. -/
def setupOutgoingCommand (s : OutgoingNumbers) (ch : U8) : Message → OutgoingNumbers × Command
  | .reliable data =>
      ({ reliable := s.reliable + 1, unreliable := 0 },
        ⟨⟨cmdSendReliable ||| commandFlagAcknowledge, ch, s.reliable + 1⟩, .sendReliable data⟩)
  | .unreliable data =>
      ({ s with unreliable := s.unreliable + 1 },
        ⟨⟨cmdSendUnreliable, ch, s.reliable⟩, .sendUnreliable (s.unreliable + 1) data⟩)

/-- The payloads of the unreliable messages. -/
def unreliablePayloads : List Message → List Bytes
  | [] => []
  | .reliable _ :: msgs => unreliablePayloads msgs
  | .unreliable data :: msgs => data :: unreliablePayloads msgs

/-! ## §2. Which numbers pass for new. -/

/-- The unreliable messages that a receiver takes whose last accepted number is
`last`, from a sender whose unreliable counter is `n`. -/
def accepted : U16 → U16 → List Message → List Bytes
  | _, _, [] => []
  | last, _, .reliable _ :: msgs => accepted last 0 msgs
  | last, n, .unreliable data :: msgs =>
      if seqLt last (n + 1) then data :: accepted (n + 1) (n + 1) msgs
      else accepted last (n + 1) msgs

/-- The lengths of the maximal runs of consecutive unreliable messages, `n`
messages into the first one. -/
def runsFrom : Nat → List Message → List Nat
  | n, [] => if n = 0 then [] else [n]
  | n, .reliable _ :: msgs => if n = 0 then runsFrom 0 msgs else n :: runsFrom 0 msgs
  | n, .unreliable _ :: msgs => runsFrom (n + 1) msgs

/-- The lengths of the maximal runs of consecutive unreliable messages. -/
def unreliableRuns (msgs : List Message) : List Nat := runsFrom 0 msgs

/-- A run length after which number 1 passes for new. -/
def Passes (len : Nat) : Prop := len % 65536 = 0 ∨ 32770 ≤ len % 65536

instance (len : Nat) : Decidable (Passes len) := inferInstanceAs (Decidable (_ ∨ _))

theorem seqLt_one_iff (len : Nat) : seqLt (BitVec.ofNat 16 len) 1#16 = true ↔ Passes len := by
  have hlt : len % 65536 < 65536 := Nat.mod_lt _ (by decide)
  unfold seqLt Passes
  rw [decide_eq_true_iff, BitVec.toInt_eq_toNat_cond, BitVec.toNat_sub, BitVec.toNat_ofNat]
  have hone : (1#16).toNat = 1 := rfl
  rw [hone]
  split <;> omega

theorem seqLt_succ (n : U16) : seqLt n (n + 1) = true := by
  unfold seqLt
  rw [decide_eq_true_iff]
  have hone : n + 1 - n = 1 := by bv_omega
  rw [hone]
  decide

theorem accepted_length_le (msgs : List Message) (last n : U16) :
    (accepted last n msgs).length ≤ (unreliablePayloads msgs).length := by
  induction msgs generalizing last n with
  | nil => exact Nat.le_refl 0
  | cons m msgs ih =>
      cases m with
      | reliable data => exact ih last 0
      | unreliable data =>
          unfold accepted
          split
          · exact Nat.succ_le_succ (ih _ _)
          · exact Nat.le_succ_of_le (ih _ _)

/-- The first unreliable message must pass, and then the rest. -/
theorem accepted_cons_eq_iff (data : Bytes) (msgs : List Message) (last n : U16) :
    accepted last n (.unreliable data :: msgs) = data :: unreliablePayloads msgs
      ↔ seqLt last (n + 1) = true ∧ accepted (n + 1) (n + 1) msgs = unreliablePayloads msgs := by
  rw [accepted]
  split
  · next hpass => exact List.cons_eq_cons.trans (by rw [and_iff_right rfl, and_iff_right hpass])
  · next hfail =>
    -- one message short
    refine ⟨fun heq => ?_, fun hboth => absurd hboth.1 hfail⟩
    have hlen := congrArg List.length heq
    have hle := accepted_length_le msgs last (n + 1)
    rw [List.length_cons] at hlen
    omega

theorem runsFrom_ne_nil {n : Nat} (hn : n ≠ 0) (msgs : List Message) : runsFrom n msgs ≠ [] := by
  induction msgs generalizing n with
  | nil => simp [runsFrom, hn]
  | cons m msgs ih =>
      cases m with
      | reliable data => simp [runsFrom, hn]
      | unreliable data => exact ih (Nat.succ_ne_zero n)

/-- Between two runs, the last of length `len`, and `n` messages into a run. -/
theorem accepted_eq_iff_from (msgs : List Message) :
    (∀ len, accepted (BitVec.ofNat 16 len) 0 msgs = unreliablePayloads msgs
      ↔ ∀ r ∈ (len :: runsFrom 0 msgs).dropLast, Passes r)
    ∧ ∀ n, n ≠ 0 → (accepted (BitVec.ofNat 16 n) (BitVec.ofNat 16 n) msgs = unreliablePayloads msgs
      ↔ ∀ r ∈ (runsFrom n msgs).dropLast, Passes r) := by
  -- the first half is for the start of a run, the second for the middle of one
  induction msgs with
  | nil =>
      constructor
      · intro len
        simp [accepted, unreliablePayloads, runsFrom]
      · intro n hn
        simp [accepted, unreliablePayloads, runsFrom, hn]
  | cons m msgs ih =>
      obtain ⟨hbetween, hinside⟩ := ih
      cases m with
      | reliable data =>
          constructor
          · intro len
            exact hbetween len
          · intro n hn
            -- the run of `n` unreliable messages ends here
            have hruns : runsFrom n (.reliable data :: msgs) = n :: runsFrom 0 msgs := if_neg hn
            rw [hruns]
            exact hbetween n
      | unreliable data =>
          have hstep : ∀ n, BitVec.ofNat 16 n + 1 = BitVec.ofNat 16 (n + 1) := fun n =>
            (BitVec.ofNat_add n 1).symm
          constructor
          · intro len
            -- the first message of a run decides about the run before it
            show _ = data :: _ ↔ ∀ r ∈ (len :: runsFrom 1 msgs).dropLast, Passes r
            have hzero : (0 : U16) + 1 = BitVec.ofNat 16 1 := rfl
            rw [accepted_cons_eq_iff, hzero, hinside 1 (by decide), seqLt_one_iff,
              List.dropLast_cons_of_ne_nil (runsFrom_ne_nil (by decide) msgs), List.forall_mem_cons]
          · intro n hn
            -- inside a run each number is one ahead of the last one accepted
            show _ = data :: _ ↔ ∀ r ∈ (runsFrom (n + 1) msgs).dropLast, Passes r
            rw [accepted_cons_eq_iff, hstep, hinside (n + 1) (Nat.succ_ne_zero n), ← hstep]
            exact and_iff_right (seqLt_succ _)

/-- **Nothing is lost exactly if every run but the last one passes.** -/
theorem accepted_eq_iff (msgs : List Message) :
    accepted 0 0 msgs = unreliablePayloads msgs ↔ ∀ r ∈ (unreliableRuns msgs).dropLast, Passes r := by
  have hfrom := (accepted_eq_iff_from msgs).1 0
  unfold unreliableRuns
  cases hruns : runsFrom 0 msgs with
  | nil =>
      rw [hruns] at hfrom
      exact hfrom
  | cons r rs =>
      rw [hruns, List.dropLast_cons_of_ne_nil (List.cons_ne_nil r rs), List.forall_mem_cons] at hfrom
      exact hfrom.trans (and_iff_right (.inl rfl))

end Reference

/-! ## §3. The receiver. -/

open Reference

/-- The unreliable messages delivered on channel `ch`, in order. -/
def PeerEntry.unreliableOn (p : PeerEntry) (ch : U8) : List Bytes :=
  ((p.deliveredOn ch).filter (·.mode = .unreliable)).map (·.data)

/-- A channel on which nothing has been received. -/
def Channel.Fresh (c : Channel) : Prop :=
  c.incomingReliableSeq = 0 ∧ c.incomingUnreliableSeq = 0 ∧ c.incomingReliableQueue = ∅

/-- The channel has everything the sender numbered so far; `last` is the last
unreliable number it accepted. -/
def PeerEntry.InStep (p : PeerEntry) (ch : U8) (s : OutgoingNumbers) (last : U16) : Prop :=
  ∃ c, p.channels[ch.toNat]? = some c ∧ c.incomingReliableSeq = s.reliable
    ∧ c.incomingUnreliableSeq = last ∧ c.incomingReliableQueue = ∅

namespace PeerEntry

variable {p q : PeerEntry} {ch : U8} {s : OutgoingNumbers} {last : U16}

/-- The next reliable message is delivered, and leaves the unreliable number. -/
theorem InStep.onSendReliable (hi : p.InStep ch s last) (data : Bytes) (nowMs : U32) :
    (p.onSendReliable ch (s.reliable + 1) data nowMs).InStep ch ⟨s.reliable + 1, 0⟩ last
      ∧ (p.onSendReliable ch (s.reliable + 1) data nowMs).unreliableOn ch = p.unreliableOn ch := by
  obtain ⟨c, hc, hrel, hlast, hempty⟩ := hi
  have hlt : ch.toNat < p.channels.length := (List.getElem?_eq_some_iff.mp hc).1
  have hexp : c.expects (s.reliable + 1) = true := by
    rw [Channel.expects, hrel]
    exact decide_eq_true rfl
  -- nothing waits in the queue, so the message alone is released
  have hdrain : Channel.drain { c with incomingReliableSeq := s.reliable + 1 }
      = ({ c with incomingReliableSeq := s.reliable + 1 }, []) := by
    simp [Channel.drain, hempty, Channel.drainLoop]
  obtain ⟨hch, hhist⟩ := onSendReliable_eq hc (s.reliable + 1) data nowMs
  rw [Channel.receiveReliable_of_expects hexp, hdrain] at hch hhist
  constructor
  · refine ⟨{ c with incomingReliableSeq := s.reliable + 1 }, ?_, rfl, hlast, hempty⟩
    rw [hch]
    exact List.getElem?_set_self hlt
  · unfold unreliableOn
    rw [deliveredOn_deliveries hhist (by decide), List.filter_append]
    simp

/-- The next unreliable message is delivered exactly if its number passes. -/
theorem InStep.onSendUnreliable (hi : p.InStep ch s last) (data : Bytes) (nowMs : U32) :
    let next := s.unreliable + 1
    let q := p.onSendUnreliable ch s.reliable next data nowMs
    if seqLt last next then q.InStep ch { s with unreliable := next } next
        ∧ q.unreliableOn ch = p.unreliableOn ch ++ [data]
      else q.InStep ch { s with unreliable := next } last
        ∧ q.unreliableOn ch = p.unreliableOn ch := by
  obtain ⟨c, hc, hrel, hlast, hempty⟩ := hi
  have hlt : ch.toNat < p.channels.length := (List.getElem?_eq_some_iff.mp hc).1
  -- the command is of the current reliable epoch
  have hepoch : seqLt s.reliable c.incomingReliableSeq = false := by
    rw [hrel, seqLt, BitVec.sub_self]
    rfl
  intro next q
  obtain ⟨hch, hhist⟩ := (onSendUnreliable_eq hc s.reliable next data nowMs).2 hepoch
  have hrecv : c.receiveUnreliable next data
      = if seqLt last next then ({ c with incomingUnreliableSeq := next }, some data)
        else (c, none) := by
    rw [← hlast]
    rfl
  rw [hrecv] at hch hhist
  split
  · next hpass =>
    rw [if_pos hpass] at hch hhist
    constructor
    · refine ⟨{ c with incomingUnreliableSeq := next }, ?_, hrel, rfl, hempty⟩
      rw [hch]
      exact List.getElem?_set_self hlt
    · unfold unreliableOn
      rw [deliveredOn_deliveries hhist (by decide), List.filter_append, List.map_append]
      rfl
  · next hfail =>
    rw [if_neg hfail] at hch hhist
    constructor
    · refine ⟨c, ?_, hrel, hlast, hempty⟩
      rw [hch]
      exact List.getElem?_set_self hlt
    · unfold unreliableOn
      rw [deliveredOn_deliveries hhist (by decide)]
      simp

theorem InStep.log_take (hi : p.InStep ch s last) (ch' : U8) (seq : U16) :
    (p.log (.take ch' seq)).InStep ch s last
      ∧ (p.log (.take ch' seq)).unreliableOn ch = p.unreliableOn ch := by
  refine ⟨hi, ?_⟩
  simp [unreliableOn, deliveredOn, log, PeerEvent.asDelivery]

end PeerEntry

namespace HostTask

variable {h : HostTask} {k : PeerKey} {p : PeerEntry} {ch : U8}

/-- Messages of the reference sender, with the times at which they arrive. -/
def receiveFrom (k : PeerKey) (ch : U8) (sentTime : Option U16) (src : SocketAddr) :
    OutgoingNumbers → HostTask → List (U32 × Message) → HostTask
  | _, h, [] => h
  | s, h, (nowMs, m) :: msgs =>
      let (s', cmd) := setupOutgoingCommand s ch m
      receiveFrom k ch sentTime src s' (h.dispatch (some k) sentTime cmd src nowMs) msgs

/-- One reliable message through `on_command`. -/
theorem dispatch_reference_reliable {s : OutgoingNumbers} {last : U16} (hp : h.peer k = some p)
    (hi : p.InStep ch s last) (data : Bytes) (sentTime : Option U16) (src : SocketAddr)
    (nowMs : U32) :
    ∃ q, (h.dispatch (some k) sentTime (setupOutgoingCommand s ch (.reliable data)).2 src
        nowMs).peer k = some q
      ∧ q.InStep ch ⟨s.reliable + 1, 0⟩ last ∧ q.unreliableOn ch = p.unreliableOn ch := by
  have hd : (setupOutgoingCommand s ch (.reliable data)).2.reliableData = some (.whole data) :=
    if_pos (by decide : (cmdSendReliable ||| commandFlagAcknowledge) &&& commandMask
      = cmdSendReliable)
  obtain ⟨hstep, hsame⟩ := hi.onSendReliable data nowMs
  have hq : (h.updatePeer k fun p => p.onData ch (s.reliable + 1) nowMs (.whole data)).peer k
      = some (p.onSendReliable ch (s.reliable + 1) data nowMs) := by
    rw [peer_updatePeer, if_pos rfl, hp]
    rfl
  rw [dispatch_data hd]
  unfold noteTake
  split
  · obtain ⟨hstep', hsame'⟩ := hstep.log_take ch (s.reliable + 1)
    refine ⟨_, ?_, hstep', hsame'.trans hsame⟩
    rw [peer_updatePeer, if_pos rfl]
    exact congrArg (Option.map _) hq
  · exact ⟨_, hq, hstep, hsame⟩

/-- One unreliable message through `on_command`. -/
theorem dispatch_reference_unreliable (hp : h.peer k = some p) (ch : U8) (s : OutgoingNumbers)
    (data : Bytes) (sentTime : Option U16) (src : SocketAddr) (nowMs : U32) :
    (h.dispatch (some k) sentTime (setupOutgoingCommand s ch (.unreliable data)).2 src nowMs).peer k
      = some (p.onSendUnreliable ch s.reliable (s.unreliable + 1) data nowMs) := by
  have hty : (setupOutgoingCommand s ch (.unreliable data)).2.header.commandType
      = cmdSendUnreliable := (by decide : cmdSendUnreliable &&& commandMask = cmdSendUnreliable)
  rw [Traffic.dispatch_sendUnreliable hty rfl, peer_updatePeer, if_pos rfl, hp]
  rfl

/-- **What the receiver delivers** of the messages of a reference sender: the
unreliable ones whose numbers pass. -/
theorem receiveFrom_delivers (k : PeerKey) (ch : U8) (sentTime : Option U16) (src : SocketAddr)
    (msgs : List (U32 × Message)) :
    ∀ (h : HostTask) (p : PeerEntry) (s : OutgoingNumbers) (last : U16), h.peer k = some p →
      p.InStep ch s last → ∃ q, (receiveFrom k ch sentTime src s h msgs).peer k = some q
        ∧ q.unreliableOn ch
          = p.unreliableOn ch ++ accepted last s.unreliable (msgs.map Prod.snd) := by
  induction msgs with
  | nil =>
      intro h p s last hp _
      exact ⟨p, hp, (List.append_nil _).symm⟩
  | cons m msgs ih =>
      intro h p s last hp hi
      obtain ⟨nowMs, m⟩ := m
      cases m with
      | reliable data =>
          obtain ⟨p', hp', hi', hsame⟩ := dispatch_reference_reliable hp hi data sentTime src nowMs
          obtain ⟨q, hq, hout⟩ := ih _ p' _ last hp' hi'
          rw [hsame] at hout
          exact ⟨q, hq, hout⟩
      | unreliable data =>
          have hp' := dispatch_reference_unreliable hp ch s data sentTime src nowMs
          have hstep := hi.onSendUnreliable data nowMs
          simp only at hstep
          split at hstep
          · next hpass =>
            -- delivered: its number is the last one accepted from now on
            obtain ⟨q, hq, hout⟩ := ih _ _ _ _ hp' hstep.1
            refine ⟨q, hq, ?_⟩
            rw [hout, hstep.2, List.append_assoc, List.map_cons, accepted, if_pos hpass]
            rfl
          · next hfail =>
            -- taken for an old duplicate
            obtain ⟨q, hq, hout⟩ := ih _ _ _ last hp' hstep.1
            exact ⟨q, hq, by rw [hout, hstep.2, List.map_cons, accepted, if_neg hfail]⟩

/-- **Interoperability with the reference sender.**  At a fresh channel, in order
and without loss: every unreliable message is delivered, in order, exactly if
every run of unreliable messages but the last one passes. -/
theorem reference_unreliable_iff {c : Channel} (hp : h.peer k = some p)
    (hc : p.channels[ch.toNat]? = some c) (hfresh : c.Fresh) (sentTime : Option U16)
    (src : SocketAddr) (msgs : List (U32 × Message)) :
    (∃ q, (receiveFrom k ch sentTime src ⟨0, 0⟩ h msgs).peer k = some q
        ∧ q.unreliableOn ch = p.unreliableOn ch ++ unreliablePayloads (msgs.map Prod.snd))
      ↔ ∀ len ∈ (unreliableRuns (msgs.map Prod.snd)).dropLast,
          len % 65536 = 0 ∨ 32770 ≤ len % 65536 := by
  obtain ⟨q, hq, hout⟩ := receiveFrom_delivers k ch sentTime src msgs h p ⟨0, 0⟩ 0 hp
    ⟨c, hc, hfresh⟩
  refine Iff.trans ?_ (accepted_eq_iff (msgs.map Prod.snd))
  constructor
  · intro hall
    obtain ⟨q', hq', hout'⟩ := hall
    cases hq.symm.trans hq'
    exact List.append_cancel_left (hout.symm.trans hout')
  · intro hall
    exact ⟨q, hq, by rw [hout, hall]⟩

/-- Alice, connected, sends two unreliable messages and a reliable one. -/
theorem reference_unreliable_alice :
    ∃ h q, (bind 4 false 0 0).run (aliceConnects 10) = some h
      ∧ (receiveFrom 0 0 (some 30) alice ⟨0, 0⟩ h
          [(40, .unreliable [1]), (50, .unreliable [2]), (60, .reliable [3])]).peer 0 = some q
      ∧ q.unreliableOn 0 = [[1], [2]] := by
  have hrun : ((bind 4 false 0 0).run (aliceConnects 10)).any (fun h => (h.peer 0).any fun p =>
      decide (p.unreliableOn 0 = []) && (p.channels[(0 : U8).toNat]?).any fun c =>
        decide (c.incomingReliableSeq = 0 ∧ c.incomingUnreliableSeq = 0)
          && c.incomingReliableQueue.isEmpty) = true := by
    decide +kernel
  obtain ⟨h, hh, hrest⟩ := (Option.any_eq_true _ _).mp hrun
  simp only [Bool.and_eq_true, Option.any_eq_true, decide_eq_true_eq,
    Std.ExtTreeMap.isEmpty_iff] at hrest
  obtain ⟨p, hp, hnone, c, hc, hseqs, hempty⟩ := hrest
  obtain ⟨q, hq, hout⟩ := (reference_unreliable_iff hp hc ⟨hseqs.1, hseqs.2, hempty⟩ (some 30) alice
    [(40, .unreliable [1]), (50, .unreliable [2]), (60, .reliable [3])]).mpr (by decide)
  exact ⟨h, q, hh, hq, by rw [hout, hnone]; rfl⟩

/-- **An unreliable message after a reliable one is lost**: unreliable, reliable,
unreliable, all in order, and only the first unreliable one is delivered. -/
theorem reference_unreliable_lost :
    ∃ h q, (bind 4 false 0 0).run (aliceConnects 10) = some h
      ∧ (receiveFrom 0 0 (some 30) alice ⟨0, 0⟩ h
          [(40, .unreliable [1]), (50, .reliable [2]), (60, .unreliable [3])]).peer 0 = some q
      ∧ q.deliveredOn 0 = [⟨[1], 0, .unreliable⟩, ⟨[2], 0, .reliable⟩]
      ∧ q.unreliableOn 0 ≠ [[1], [3]] := by
  have hrun : ((bind 4 false 0 0).run (aliceConnects 10)).any (fun h =>
      ((receiveFrom 0 0 (some 30) alice ⟨0, 0⟩ h
        [(40, .unreliable [1]), (50, .reliable [2]), (60, .unreliable [3])]).peer 0).any fun q =>
          decide (q.deliveredOn 0 = [⟨[1], 0, .unreliable⟩, ⟨[2], 0, .reliable⟩])) = true := by
    decide +kernel
  obtain ⟨h, hh, hrest⟩ := (Option.any_eq_true _ _).mp hrun
  simp only [Option.any_eq_true, decide_eq_true_eq] at hrest
  obtain ⟨q, hq, hout⟩ := hrest
  refine ⟨h, q, hh, hq, hout, ?_⟩
  rw [PeerEntry.unreliableOn, hout]
  decide

end HostTask

end EnetRs
