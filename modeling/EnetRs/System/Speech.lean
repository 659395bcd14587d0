/-
  EnetRs.System.Speech — what the two ends say to each other.

  `Speech Q V A` bounds what a host says: its CONNECTs meet `Q`, its
  VERIFY_CONNECTs meet `V`, its ACKs on the data channels name numbers that meet
  `A`, and it never sends THROTTLE_CONFIGURE.  Everything else that a host sends
  says none of these things.

  Main results:
    * `HostTask.Utters.speech` — one change keeps to it.
    * `Permit.serve`, `Permit.talk` — what the server and the client may do.
-/
import EnetRs.Exchange.Terms
import EnetRs.Exchange.Utterance
import EnetRs.System.TwoHosts

namespace EnetRs

open MachineInt

/-! ## §1. Speech. -/

/-- The bodies that ask for nothing, settle nothing and acknowledge nothing. -/
def CommandBody.Plain : CommandBody → Prop
  | .connect _ | .verifyConnect _ | .acknowledge _ | .throttleConfigure _ => False
  | _ => True

namespace Command

/-- **What a host says.** -/
structure Speech (Q : ConnectCmd → Prop) (V : VerifyConnectCmd → Prop) (A : U8 → U16 → Prop)
    (cmd : Command) : Prop where
  connect : ∀ c, cmd.Connects c → Q c
  verify : ∀ v, cmd.body = .verifyConnect v → V v
  ack : ∀ a, cmd.body = .acknowledge a → cmd.header.channelId ≠ channelIdConnection →
    A cmd.header.channelId a.receivedReliableSeq
  throttle : ∀ c, cmd.body ≠ .throttleConfigure c

variable {Q : ConnectCmd → Prop} {V : VerifyConnectCmd → Prop} {A A' : U8 → U16 → Prop}
  {cmd : Command}

theorem Speech.mono (hA : ∀ ch seq, A ch seq → A' ch seq) (hs : cmd.Speech Q V A) :
    cmd.Speech Q V A' :=
  ⟨hs.connect, hs.verify, fun a hb hch => hA _ _ (hs.ack a hb hch), hs.throttle⟩

theorem speech_of_plain (hp : cmd.body.Plain) : cmd.Speech Q V A where
  connect c hc := by rw [hc.2] at hp; exact hp.elim
  verify v hb := by rw [hb] at hp; exact hp.elim
  ack a hb _ := by rw [hb] at hp; exact hp.elim
  throttle c hb := by rw [hb] at hp; exact hp.elim

theorem speech_acknowledgement {ch : U8} {seq st : U16}
    (hA : ch ≠ channelIdConnection → A ch seq) : (acknowledgement ch seq st).Speech Q V A where
  connect c hc := CommandBody.noConfusion hc.2
  verify v hb := CommandBody.noConfusion hb
  ack a hb hch := by
    cases hb
    exact hA hch
  throttle c hb := CommandBody.noConfusion hb

theorem speech_connect {ch : U8} {seq : U16} {c : ConnectCmd} (hQ : Q c) :
    (tracked ch seq (.connect c)).Speech Q V A where
  connect c' hc := by
    cases hc.2
    exact hQ
  verify v hb := CommandBody.noConfusion hb
  ack a hb := CommandBody.noConfusion hb
  throttle c hb := CommandBody.noConfusion hb

theorem speech_verifyConnect {ch : U8} {seq : U16} {v : VerifyConnectCmd} (hV : V v) :
    (tracked ch seq (.verifyConnect v)).Speech Q V A where
  connect c hc := CommandBody.noConfusion hc.2
  verify v' hb := by
    cases hb
    exact hV
  ack a hb := CommandBody.noConfusion hb
  throttle c hb := CommandBody.noConfusion hb

end Command

namespace Config

/-- The server answers: it asks for nothing, settles the terms the client asked for,
and acknowledges numbers that meet `A`. -/
abbrev Answer (cfg : Config) (A : U8 → U16 → Prop) : Command → Prop :=
  Command.Speech (fun _ => False) (HostTask.VerifyTerms 0 cfg.connectId) A

/-- The client asks for its one connection. -/
abbrev Question (cfg : Config) : Command → Prop :=
  Command.Speech (· = cfg.request) (fun _ => True) fun _ _ => True

end Config

section Label

variable {Q : ConnectCmd → Prop} {V : VerifyConnectCmd → Prop} {A : U8 → U16 → Prop}
  {v : Permit} {nowMs : U32} {h : HostTask}

/-- **One change.** -/
theorem HostTask.Utters.speech {l : Label} (hu : h.Utters (Command.Speech Q V A)) (hr : h.Ready)
    (hg : l.Guard nowMs h) (hl : v.Allows h l)
    (hun : ∀ cmd, v.untracked cmd → cmd.Speech Q V A)
    (hnew : ∀ slot entry, l = .install slot entry → entry.Stores (Command.Speech Q V A)) :
    (l.apply nowMs h).Utters (Command.Speech Q V A) := by
  refine hu.label (fun _ h => h) hr hg hl hun (fun body hb seq => ?_) hnew ?_
  · refine Command.speech_of_plain ?_
    cases hb with
    | ping => trivial
    | disconnect data => trivial
    | bandwidthLimit c => trivial
  · cases l with
    | op k o =>
        cases o with
        | numberWhole pkt => exact fun _ _ _ _ => Command.speech_of_plain trivial
        | numberFragments pkt fp => exact fun _ _ _ _ _ _ => Command.speech_of_plain trivial
        | _ => trivial
    | _ => trivial

end Label

/-! ## §2. Packets. -/

/-- The size limits of a packet: MAX_PACKET_SIZE, and for an unsequenced packet the
16 bits of its length field. -/
def Packet.Fits (pkt : Packet) : Prop :=
  pkt.data.length ≤ maxPacketSize ∧ (pkt.mode = .unsequenced → pkt.data.length < 65536)

instance (pkt : Packet) : Decidable pkt.Fits := inferInstanceAs (Decidable (_ ∧ _))

/-- **The untracked commands of a packet**: they are on its channel and ask for no
ACK. -/
theorem Packet.Fits.becomes {pkt : Packet} (hf : pkt.Fits) {T : Command → Prop}
    (hT : ∀ cmd, cmd.body.Plain → cmd.header.channelId = pkt.channel →
      cmd.header.hasAckFlag = false →
      (pkt.mode = .unsequenced → cmd.header.commandType = cmdSendUnsequenced) →
      pkt.mode ≠ .reliable → T cmd) :
    pkt.Becomes T where
  size := hf.1
  unreliable hm rseq useq := by
    refine hT _ trivial rfl ?_ (by simp [hm]) (by simp [hm])
    exact (by decide : ((cmdSendUnreliable ||| 0) &&& commandFlagAcknowledge != 0) = false)
  fragment hm rseq sf := by
    refine hT _ trivial rfl ?_ (by simp [hm]) (by simp [hm])
    exact (by decide : ((cmdSendUnreliableFragment ||| 0) &&& commandFlagAcknowledge != 0) = false)
  unsequenced hm := by
    refine ⟨hf.2 hm, fun group => hT _ trivial rfl ?_ (fun _ => ?_) (by simp [hm])⟩
    · exact (by decide : ((cmdSendUnsequenced ||| commandFlagUnsequenced)
        &&& commandFlagAcknowledge != 0) = false)
    · exact (by decide : (cmdSendUnsequenced ||| commandFlagUnsequenced) &&& commandMask
        = cmdSendUnsequenced)

/-! ## §3. Permits. -/

namespace Permit

/-- The client: it opens no connection any more. -/
def talk (heard untracked : Command → Prop) (numbers removes : Prop) : Permit :=
  ⟨heard, untracked, fun _ _ _ => False, numbers, removes⟩

/-- The server: it answers the CONNECTs of one address. -/
def serve (src : SocketAddr) (heard untracked : Command → Prop) : Permit where
  heard := heard
  untracked := untracked
  entry h slot entry := h.addrMap src = none ∧ ∃ cmd c t,
    heard cmd ∧ cmd.Connects c ∧ entry = (h.serverHandshake slot c cmd.header src t).1
  numbers := True
  removes := True

end Permit

end EnetRs
