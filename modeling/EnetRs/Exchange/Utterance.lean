/-
  EnetRs.Exchange.Utterance — what one host says is what another one hears.

  `Utters T h` says that everything `h` has sent, and everything it may send again,
  are commands that meet `T`.  It is kept by every change that keeps to a permit,
  and a host that accepts one of the datagrams parses commands that meet `T`.

  Main results:
    * `HostTask.Utters.label` — one change.
    * `HostTask.heard_of_utterance` — what a receiver parses.
-/
import EnetRs.Sending.Wire
import EnetRs.Exchange.Checksum
import EnetRs.Exchange.Handshake

namespace EnetRs

open MachineInt

/-! ## §1. What is stored. -/

/-- Everything outstanding is a command that meets `T`. -/
def PeerEntry.Stores (T : Command → Prop) (p : PeerEntry) : Prop := ∀ b, p.Retains b → Encodes T b

/-- The commands that the change creates for a packet meet `T`. -/
def Label.Numbers (T : Command → Prop) (h : HostTask) : Label → Prop
  | .op k (.numberWhole pkt) => ∀ p c, h.peer k = some p →
      p.channels[pkt.channel.toNat]? = some c →
      T (.tracked pkt.channel (c.outgoingReliableSeq + 1) (.sendReliable pkt.data))
  | .op k (.numberFragments pkt fp) => ∀ p c, h.peer k = some p →
      p.channels[pkt.channel.toNat]? = some c → ∀ j < fragCount fp pkt.data,
      T (.tracked pkt.channel (c.outgoingReliableSeq + 1 + BitVec.ofNat 16 j)
        (.sendFragment (fragmentOf (c.outgoingReliableSeq + 1) fp pkt.data j)))
  | _ => True

namespace PeerEntry

variable {T T' : Command → Prop} {p q : PeerEntry}

theorem Stores.puts {W : U8 × U16 → Bytes → Prop} (hp : p.Stores T)
    (hT : ∀ cmd, T cmd → T' cmd) (hpq : Puts W p q) (hW : ∀ key b, W key b → Encodes T' b) :
    q.Stores T' := by
  rintro b ⟨key, r, hr, rfl⟩
  rcases hpq key r hr with ⟨r', hr', heq⟩ | hnew
  · exact heq ▸ (hp _ ⟨key, r', hr', rfl⟩).mono hT
  · exact hW key _ hnew

/-- The first command of an entry. -/
theorem stores_first (body : CommandBody) (nowMs : U32) (hempty : p.outgoingReliable = ∅)
    (hwf : ∀ seq, (Command.tracked channelIdConnection seq body).WellFormed)
    (hcmd : ∀ seq, T (.tracked channelIdConnection seq body))
    (hq : q.outgoingReliable = (p.makeReliable channelIdConnection body.commandType 0 nowMs
      (Command.writeBody body)).1.outgoingReliable) : q.Stores T := by
  have hstart : p.Stores T := by
    rintro b ⟨key, r, hr, -⟩
    rw [hempty] at hr
    cases hr
  refine hstart.puts (fun _ h => h) ((puts_connectionCmd p body nowMs).trans (.of_same hq)) ?_
  rintro key b ⟨seq, -, rfl⟩
  exact ⟨_, hwf seq, hcmd seq, rfl⟩

/-- **One operation.** -/
theorem Stores.op {v : Permit} {h : HostTask} {k : PeerKey} {o : PeerOp} {nowMs : U32}
    (hp : p.Stores T) (hT : ∀ cmd, T cmd → T' cmd) (hk : h.peer k = some p)
    (hlim : Limited mtuDefault p) (hg : o.Guard h p) (hl : v.Allows h (.op k o))
    (hctl : ∀ body : CommandBody, body.Control → ∀ seq, T' (.tracked channelIdConnection seq body))
    (hnum : (Label.op k o).Numbers T' h) : (o.apply nowMs p).Stores T' := by
  have hmtu : p.mtu.toNat ≤ 1392 := hlim.mtu_le
  by_cases hcr : o.Creating
  · cases o with
    | connectionCmd cmdType body =>
        obtain ⟨b, hb, rfl, rfl⟩ := hl
        refine hp.puts hT (puts_connectionCmd p b nowMs) ?_
        rintro key bytes ⟨seq, -, rfl⟩
        refine ⟨_, Command.tracked_wellFormed _ seq ?_, hctl b hb seq, rfl⟩
        cases hb <;> exact Nat.zero_lt_succ _
    | numberWhole pkt =>
        obtain ⟨c, hsend, -, hlen⟩ := hg
        refine hp.puts hT (puts_numberWhole hsend.2.2 (hsend.channel_ne hlim.channels.2) nowMs) ?_
        rintro key bytes ⟨-, rfl⟩
        refine ⟨_, Command.tracked_wellFormed _ _ ?_, hnum p c hk hsend.2.2, rfl⟩
        show pkt.data.length < 65536
        unfold maxReliablePayload at hlen
        omega
    | numberFragments pkt fp =>
        obtain ⟨c, hsend, -, hbig, rfl⟩ := hg
        refine hp.puts hT (puts_numberFragments hsend.2.2 nowMs
          (fragCount_pos_of_big hlim.toInRange hbig)) ?_
        rintro key bytes ⟨j, hj, -, rfl⟩
        refine ⟨_, Command.tracked_wellFormed _ _ ?_, hnum p c hk hsend.2.2 j hj, rfl⟩
        show ((pkt.data.drop _).take _).length < 65536
        rw [List.length_take]
        unfold fragPayload
        omega
    | _ => exact hcr.elim
  · exact hp.puts hT (PeerOp.puts_of_not_creating hcr nowMs p fun _ _ => False)
      fun _ _ => False.elim

end PeerEntry

/-- The entry of `begin_connect` stores its CONNECT. -/
theorem HostTask.clientHandshake_stores {T : Command → Prop} (h : HostTask) (slot : PeerKey)
    (addr : SocketAddr) (channelCount : U8) (userData nowMs : U32) (reply : ConnectReplySender)
    (connectId : U32)
    (hT : ∀ seq, T (.tracked channelIdConnection seq
      (.connect (h.connectRequest slot (umax channelCount 1) connectId userData)))) :
    (h.clientHandshake slot addr channelCount userData nowMs reply connectId).1.Stores T :=
  PeerEntry.stores_first
    (p := { PeerEntry.fresh addr connectId h.nextConn h.hostMtu (umax channelCount 1) nowMs with
      connectReply := some reply })
    (.connect (h.connectRequest slot (umax channelCount 1) connectId userData)) nowMs rfl
    (fun seq => Command.tracked_wellFormed _ seq (Nat.zero_lt_succ _)) hT rfl

/-- The entry of `on_connect` stores its VERIFY_CONNECT. -/
theorem HostTask.serverHandshake_stores {T : Command → Prop} (h : HostTask) (slot : PeerKey)
    (c : ConnectCmd) (hdr : CommandHeader) (src : SocketAddr) (nowMs : U32)
    (hT : ∀ seq, T (.tracked channelIdConnection seq (.verifyConnect
      (h.verifyReply slot (h.serverEntry c hdr src nowMs) (negotiateChannels c))))) :
    (h.serverHandshake slot c hdr src nowMs).1.Stores T :=
  PeerEntry.stores_first (p := h.serverEntry c hdr src nowMs)
    (.verifyConnect (h.verifyReply slot (h.serverEntry c hdr src nowMs) (negotiateChannels c)))
    nowMs rfl
    (fun seq => Command.tracked_wellFormed _ seq (Nat.zero_lt_succ _)) hT rfl

/-! ## §2. What is said. -/

/-- The datagram carries these commands, and they meet `T`. -/
structure Utterance (T : Command → Prop) (useChecksum : Bool) (cmds : List Bytes)
    (datagram : Bytes) : Prop where
  encodes : ∀ b ∈ cmds, Encodes T b
  shape : (∃ (p : PeerEntry) (nowMs : U32),
      datagram = HostTask.makeDatagram useChecksum p cmds nowMs)
    ∨ T .refusal ∧ ∃ outgoingPeerId nowMs, datagram = HostTask.rawDisconnect outgoingPeerId nowMs

theorem Utterance.mono {T T' : Command → Prop} {useChecksum : Bool} {cmds : List Bytes}
    {datagram : Bytes} (hT : ∀ cmd, T cmd → T' cmd)
    (hu : Utterance T useChecksum cmds datagram) : Utterance T' useChecksum cmds datagram :=
  ⟨fun b hb => (hu.encodes b hb).mono hT, hu.shape.imp_right fun hraw => ⟨hT _ hraw.1, hraw.2⟩⟩

namespace HostTask

/-- **Everything said so far, and everything that may be said again, meets `T`.** -/
structure Utters (T : Command → Prop) (h : HostTask) : Prop where
  stored : ∀ k p, h.peer k = some p → p.Stores T
  sent : ∀ dest cmds datagram, .sent dest cmds datagram ∈ h.trace →
    Utterance T h.useChecksum cmds datagram

variable {T T' : Command → Prop} {v : Permit} {nowMs : U32} {h h' : HostTask}

theorem utters_new (acceptCapacity maxPeers : Nat) (useChecksum : Bool) (ib ob : U32) :
    (HostTask.new acceptCapacity maxPeers useChecksum ib ob).Utters T :=
  ⟨by simp, fun _ _ _ hmem => nomatch hmem⟩

theorem Utters.mono (hT : ∀ cmd, T cmd → T' cmd) (hu : h.Utters T) : h.Utters T' :=
  ⟨fun k p hp b hb => (hu.stored k p hp b hb).mono hT,
    fun dest cmds d hsent => (hu.sent dest cmds d hsent).mono hT⟩

/-- The trace grows by what is outstanding, by what is untracked, or by the bare
DISCONNECT. -/
theorem Utters.sent_label {l : Label} (hu : h.Utters T) (hT : ∀ cmd, T cmd → T' cmd)
    (hg : l.Guard nowMs h) (hl : v.Allows h l) (hun : ∀ cmd, v.untracked cmd → T' cmd)
    {dest : SocketAddr} {cmds : List Bytes} {datagram : Bytes}
    (hmem : .sent dest cmds datagram ∈ (l.apply nowMs h).trace) :
    Utterance T' h.useChecksum cmds datagram := by
  have hold : .sent dest cmds datagram ∈ h.trace → Utterance T' h.useChecksum cmds datagram :=
    fun hmem => (hu.sent dest cmds datagram hmem).mono hT
  cases l with
  | op k o =>
      obtain ⟨p, hp, -⟩ := hg
      rw [Label.trace_apply_op hp] at hmem
      rcases List.mem_append.mp hmem with hmem | hnew
      · exact hold hmem
      · cases o with
        | emit cmds' =>
            obtain ⟨rfl, rfl, rfl⟩ := Event.sent.inj (List.mem_singleton.mp hnew)
            obtain ⟨q, hq, hall⟩ := hl
            cases hp.symm.trans hq
            refine ⟨fun b hb => ?_, .inl ⟨p, nowMs, rfl⟩⟩
            rcases hall b hb with hkept | hfree
            · exact (hu.stored k p hp b hkept).mono hT
            · exact hfree.mono hun
        | verify hostMtu vc hdr =>
            simp only [PeerOp.events] at hnew
            split at hnew <;> simp at hnew
        | _ => simp [PeerOp.events] at hnew
  | raw connect addr =>
      rcases List.mem_append.mp (show _ ∈ h.trace ++ [_] from hmem) with hmem | hnew
      · exact hold hmem
      · obtain ⟨-, rfl, rfl⟩ := Event.sent.inj (List.mem_singleton.mp hnew)
        refine ⟨fun b hb => ?_, .inr ⟨hun _ hl, connect.outgoingPeerId, nowMs, rfl⟩⟩
        rw [List.mem_singleton.mp hb]
        exact ⟨.refusal, Command.refusal_wellFormed, hun _ hl, rfl⟩
  | remove k => exact hold hmem
  | install slot entry => exact hold hmem
  | epoch => exact hold hmem
  | appAccept => exact hold hmem
  | appClose => exact hold hmem

/-- **One change.** -/
theorem Utters.label {l : Label} (hu : h.Utters T) (hT : ∀ cmd, T cmd → T' cmd) (hr : h.Ready)
    (hg : l.Guard nowMs h) (hl : v.Allows h l) (hun : ∀ cmd, v.untracked cmd → T' cmd)
    (hctl : ∀ body : CommandBody, body.Control → ∀ seq, T' (.tracked channelIdConnection seq body))
    (hnew : ∀ slot entry, l = .install slot entry → entry.Stores T') (hnum : l.Numbers T' h) :
    (l.apply nowMs h).Utters T' := by
  refine ⟨?_, fun dest cmds d hmem => ?_⟩
  · refine Label.entries hg (fun slot entry hl _ => hnew slot entry hl) ?_
      fun k p hp b hb => (hu.stored k p hp b hb).mono hT
    rintro k p o rfl hp - hgo
    have hlim := hr.limited.2 k p hp
    rw [hr.limited.1] at hlim
    exact (hu.stored k p hp).op hT hp hlim hgo hl hctl hnum
  · rw [Label.useChecksum_apply]
    exact hu.sent_label hT hg hl hun hmem

/-! ## §3. What is heard. -/

/-- Bytes that all encode commands are the bytes of a list of commands. -/
theorem exists_commands {cmds : List Bytes} (hall : ∀ b ∈ cmds, Encodes T b) :
    ∃ cs : List Command, cs.map Command.write = cmds ∧ ∀ cmd ∈ cs, cmd.WellFormed ∧ T cmd := by
  induction cmds with
  | nil => exact ⟨[], rfl, by simp⟩
  | cons b cmds ih =>
      obtain ⟨cmd, hwf, hcmd, rfl⟩ := hall b List.mem_cons_self
      obtain ⟨cs, rfl, hcs⟩ := ih fun b' hb' => hall b' (List.mem_cons_of_mem _ hb')
      refine ⟨cmd :: cs, rfl, fun c hc => ?_⟩
      rcases List.mem_cons.mp hc with rfl | hc
      · exact ⟨hwf, hcmd⟩
      · exact hcs c hc

/-- The bare DISCONNECT is read as such; with checksums nothing is left of it. -/
theorem acceptDatagram_rawDisconnect {outgoingPeerId : U16} {src : SocketAddr} {a : Accepted}
    (ha : h.acceptDatagram (rawDisconnect outgoingPeerId nowMs) src = some a) :
    ∀ cmd ∈ a.cmds, cmd = .refusal := by
  have hwhole : parseCommands [0x04, 0xFF, 0, 0, 0, 0, 0, 0] = [.refusal] := by decide
  have hrest : parseCommands [0, 0, 0, 0] = [] := by decide
  have hcmds : a.cmds = [.refusal] ∨ a.cmds = [] := by
    simp only [acceptDatagram, parse_rawDisconnect] at ha
    split at ha
    · cases ha
    · split at ha
      · cases ha
      · split at ha
        · cases ha
        · next payload hpay =>
          cases ha
          unfold checkedPayload at hpay
          split at hpay
          · split at hpay
            · cases hpay
            · simp only at hpay
              split at hpay
              · cases hpay
              · cases hpay
                exact .inr hrest
          · cases hpay
            exact .inl hwhole
  intro cmd hcmd
  rcases hcmds with heq | heq
  · rw [heq] at hcmd
    exact List.mem_singleton.mp hcmd
  · rw [heq] at hcmd
    cases hcmd

/-- **What is heard was said.** -/
theorem heard_of_utterance {g : HostTask} {cmds : List Bytes} {datagram : Bytes} {src : SocketAddr}
    {a : Accepted} (hu : Utterance T g.useChecksum cmds datagram)
    (ha : g.acceptDatagram datagram src = some a) : ∀ cmd ∈ a.cmds, T cmd := by
  rcases hu.shape with ⟨p, t, rfl⟩ | ⟨hraw, id, t, rfl⟩
  · obtain ⟨cs, hcs, hall⟩ := exists_commands hu.encodes
    rw [acceptDatagram_makeDatagram ha, ← hcs, parseCommands_write fun cmd hc => (hall cmd hc).1]
    intro cmd hcmd
    exact (hall cmd (List.mem_of_mem_take hcmd)).2
  · intro cmd hcmd
    rw [acceptDatagram_rawDisconnect ha cmd hcmd]
    exact hraw

end HostTask

end EnetRs
