/-
  EnetRs.Sending.Stored — which bytes are stored for retransmission.

  `make_reliable` and the fragmentation loop store each command they build under
  its channel and number; nothing rewrites the bytes afterwards.

  Main results:
    * `PeerOp.puts_of_not_creating` — every other operation leaves the bytes alone.
    * `puts_numberWhole`, `puts_numberFragments`, `puts_connectionCmd` — what
      is stored when something is created.
    * `numberFragments_retains` — every fragment that goes out is stored.
-/
import EnetRs.Sending.Numbering
import EnetRs.Protocol.RoundTrip
import EnetRs.Reassembly.Buffer

namespace EnetRs

open MachineInt

/-! ## §1. Commands. -/

namespace Command

/-- What `make_reliable` and the fragmentation loop build for a body. -/
def tracked (ch : U8) (seq : U16) (body : CommandBody) : Command :=
  ⟨⟨body.commandType ||| commandFlagAcknowledge, ch, seq⟩, body⟩

theorem tracked_commandType (ch : U8) (seq : U16) (body : CommandBody) :
    (tracked ch seq body).header.commandType = body.commandType := by
  show (body.commandType ||| commandFlagAcknowledge) &&& commandMask = body.commandType
  cases body <;> (simp only [CommandBody.commandType]; decide)

theorem tracked_wellFormed (ch : U8) (seq : U16) {body : CommandBody}
    (hlen : body.payload.length < 65536) : (tracked ch seq body).WellFormed :=
  ⟨tracked_commandType ch seq body, hlen⟩

end Command

/-! ## §2. Stored bytes. -/

/-- The command is outstanding. -/
def PeerEntry.Retains (p : PeerEntry) (b : Bytes) : Prop :=
  ∃ (key : U8 × U16) (r : OutstandingReliable),
    p.outgoingReliable[key]? = some r ∧ r.packetBytes = b

/-- Every command outstanding in `q` has the bytes it had in `p`, or is one that
`W` allows under its key. -/
def Puts (W : U8 × U16 → Bytes → Prop) (p q : PeerEntry) : Prop :=
  ∀ (key : U8 × U16) (r : OutstandingReliable), q.outgoingReliable[key]? = some r →
    (∃ r', p.outgoingReliable[key]? = some r' ∧ r'.packetBytes = r.packetBytes)
      ∨ W key r.packetBytes

namespace Puts

variable {W W' : U8 × U16 → Bytes → Prop} {p q s : PeerEntry}

theorem of_same (hout : q.outgoingReliable = p.outgoingReliable) : Puts W p q := by
  intro key r hr
  rw [hout] at hr
  exact .inl ⟨r, hr, rfl⟩

theorem trans (hpq : Puts W p q) (hqs : Puts W q s) : Puts W p s := by
  intro key r hr
  rcases hqs key r hr with ⟨r', hr', heq⟩ | hnew
  · rcases hpq key r' hr' with ⟨r₀, hr₀, heq₀⟩ | hnew
    · exact .inl ⟨r₀, hr₀, heq₀.trans heq⟩
    · exact .inr (heq ▸ hnew)
  · exact .inr hnew

theorem mono (hpq : Puts W p q) (hW : ∀ key b, W key b → W' key b) : Puts W' p q :=
  fun key r hr => (hpq key r hr).imp_right (hW key _)

theorem track (p : PeerEntry) {ch : U8} {seq : U16} (cmdType : U8) {cmd : Bytes} (nowMs : U32)
    (hW : W (ch, seq) cmd) : Puts W p (p.track ch seq cmdType cmd nowMs) := by
  intro key r hr
  simp only [PeerEntry.track] at hr
  rw [Std.ExtTreeMap.getElem?_insert] at hr
  split at hr
  · next hkey =>
    cases hr
    rw [← Std.LawfulEqCmp.eq_of_compare hkey]
    exact .inr hW
  · exact .inl ⟨r, hr, rfl⟩

end Puts

/-- **Nothing else touches the stored bytes.** -/
theorem PeerOp.puts_of_not_creating {o : PeerOp} (ho : ¬ o.Creating) (nowMs : U32) (p : PeerEntry)
    (W : U8 × U16 → Bytes → Prop) : Puts W p (o.apply nowMs p) := by
  intro key r hr
  obtain ⟨r', hr', hres⟩ := PeerOp.outgoing_of_not_creating ho nowMs p hr
  exact .inl ⟨r', hr', hres.packetBytes.symm⟩

namespace PeerEntry

variable {p : PeerEntry} {c : Channel} {pkt : Packet}

/-! ## §3. The loop, step by step. -/

/-- The bytes of fragment `i` under the number `seq`. -/
def fragmentBytes (ch : U8) (startSeq : U16) (fp : Nat) (data : Bytes) (seq : U16) (i : Nat) :
    Bytes :=
  (Command.tracked ch seq (.sendFragment (fragmentOf startSeq fp data i))).write

/-- The entry after the next number of `ch` was taken and `cmd` stored under it. -/
def storeNext (p : PeerEntry) (ch : U8) (c : Channel) (cmd : Bytes) (nowMs : U32) : PeerEntry :=
  ({ p with channels := p.channels.set ch.toNat c.nextReliableSeq } : PeerEntry).track ch
    (c.outgoingReliableSeq + 1) cmdSendFragment cmd nowMs

theorem storeNext_channel {ch : U8} (hc : p.channels[ch.toNat]? = some c) (cmd : Bytes)
    (nowMs : U32) : (p.storeNext ch c cmd nowMs).channels[ch.toNat]? = some c.nextReliableSeq :=
  List.getElem?_set_self (List.getElem?_eq_some_iff.mp hc).1

theorem puts_storeNext {W : U8 × U16 → Bytes → Prop} (p : PeerEntry) (ch : U8) (c : Channel)
    (cmd : Bytes) (nowMs : U32) (hW : W (ch, c.outgoingReliableSeq + 1) cmd) :
    Puts W p (p.storeNext ch c cmd nowMs) :=
  Puts.trans (q := { p with channels := p.channels.set ch.toNat c.nextReliableSeq })
    (.of_same rfl) (.track _ cmdSendFragment nowMs hW)

/-- A fragment after the first takes the next number. -/
theorem fragmentLoop_succ (ch : U8) (startSeq : U16) (fp : Nat) (data : Bytes) (nowMs : U32)
    (n : Nat) {i : Nat} (hi : i ≠ 0) (hc : p.channels[ch.toNat]? = some c) :
    fragmentLoop ch startSeq fp data nowMs (n + 1) i p
      = (let cmd := fragmentBytes ch startSeq fp data (c.outgoingReliableSeq + 1) i
         let rest := fragmentLoop ch startSeq fp data nowMs n (i + 1) (p.storeNext ch c cmd nowMs)
         (rest.1, cmd :: rest.2)) := by
  have hnext : p.nextReliableSeq ch
      = ({ p with channels := p.channels.set ch.toNat c.nextReliableSeq },
          c.outgoingReliableSeq + 1) := by
    simp only [nextReliableSeq, hc]
    rfl
  conv_lhs => unfold fragmentLoop
  simp only [hi, if_false, hnext]
  rfl

/-- The first fragment has the number taken before the loop. -/
theorem numberFragments_succ (hc : p.channels[pkt.channel.toNat]? = some c) {fp : Nat}
    (nowMs : U32) {n : Nat} (hn : fragCount fp pkt.data = n + 1) :
    ∃ rest, rest = fragmentLoop pkt.channel (c.outgoingReliableSeq + 1) fp pkt.data nowMs n 1
        (p.storeNext pkt.channel c (fragmentBytes pkt.channel (c.outgoingReliableSeq + 1) fp
          pkt.data (c.outgoingReliableSeq + 1) 0) nowMs)
      ∧ (p.numberFragments pkt fp nowMs).1.outgoingReliable = rest.1.outgoingReliable
      ∧ (p.numberFragments pkt fp nowMs).2 = fragmentBytes pkt.channel (c.outgoingReliableSeq + 1)
          fp pkt.data (c.outgoingReliableSeq + 1) 0 :: rest.2 := by
  have hnext : p.nextReliableSeq pkt.channel
      = ({ p with channels := p.channels.set pkt.channel.toNat c.nextReliableSeq },
          c.outgoingReliableSeq + 1) := by
    simp only [nextReliableSeq, hc]
    rfl
  refine ⟨_, rfl, ?_⟩
  unfold numberFragments
  simp only [hnext, hn]
  exact ⟨rfl, rfl⟩

/-! ## §4. What is created. -/

/-- A control command on the connection channel. -/
theorem puts_connectionCmd (p : PeerEntry) (body : CommandBody) (nowMs : U32) :
    Puts (fun key b => ∃ seq, key = (channelIdConnection, seq)
        ∧ b = (Command.tracked channelIdConnection seq body).write) p
      (p.makeReliable channelIdConnection body.commandType 0 nowMs (Command.writeBody body)).1 := by
  refine Puts.trans (q := (p.takeSeq channelIdConnection).1) (.of_same rfl) ?_
  refine .track _ _ nowMs ⟨_, rfl, ?_⟩
  have hflags : commandFlagAcknowledge ||| 0 = commandFlagAcknowledge := by decide
  rw [hflags]
  rfl

/-- A packet in one piece. -/
theorem puts_numberWhole (hc : p.channels[pkt.channel.toNat]? = some c)
    (hch : pkt.channel ≠ channelIdConnection) (nowMs : U32) :
    Puts (fun key b => key = (pkt.channel, c.outgoingReliableSeq + 1)
        ∧ b = (Command.tracked pkt.channel (c.outgoingReliableSeq + 1)
          (.sendReliable pkt.data)).write) p (p.numberWhole pkt nowMs).1 := by
  have htake : p.takeSeq pkt.channel = p.nextReliableSeq pkt.channel := if_neg hch
  have hseq := nextReliableSeq_snd hc
  have hflags : commandFlagAcknowledge ||| 0 = commandFlagAcknowledge := by decide
  refine Puts.trans (q := (p.takeSeq pkt.channel).1) (.of_same ?_) ?_
  · rw [htake, nextReliableSeq_outgoing]
  · rw [← hseq, ← htake]
    refine Puts.trans (q := (p.makeReliable pkt.channel cmdSendReliable 0 nowMs
      (be16 (BitVec.ofNat 16 pkt.data.length) ++ pkt.data)).1) ?_ (.of_same rfl)
    refine Puts.track (p.takeSeq pkt.channel).1 cmdSendReliable nowMs ⟨rfl, ?_⟩
    rw [hflags]
    rfl

/-- The fragments after the first. -/
theorem puts_fragmentLoop (ch : U8) (startSeq : U16) (fp : Nat) (data : Bytes) (nowMs : U32) :
    ∀ (n i : Nat) (p : PeerEntry) (c : Channel), i ≠ 0 → p.channels[ch.toNat]? = some c →
      Puts (fun key b => ∃ j < n, key = (ch, c.outgoingReliableSeq + 1 + BitVec.ofNat 16 j)
        ∧ b = fragmentBytes ch startSeq fp data (c.outgoingReliableSeq + 1 + BitVec.ofNat 16 j)
          (i + j)) p (fragmentLoop ch startSeq fp data nowMs n i p).1 := by
  intro n
  induction n with
  | zero =>
      intro i p c _ _
      exact .of_same rfl
  | succ n ih =>
      intro i p c hi hc
      rw [fragmentLoop_succ ch startSeq fp data nowMs n hi hc]
      -- the first of them is stored under the next number, the others follow it
      refine Puts.trans (puts_storeNext p ch c _ nowMs ⟨0, Nat.succ_pos n, ?_, rfl⟩) ?_
      · rw [BitVec.add_zero]
      rw [BitVec.add_zero, Nat.add_zero]
      refine (ih (i + 1) _ c.nextReliableSeq (Nat.succ_ne_zero i)
        (storeNext_channel hc _ nowMs)).mono ?_
      rintro key b ⟨j, hj, hkey, hb⟩
      have hadd : c.nextReliableSeq.outgoingReliableSeq + 1 + BitVec.ofNat 16 j
          = c.outgoingReliableSeq + 1 + BitVec.ofNat 16 (j + 1) := Serial.add_one_add _ j
      rw [hadd] at hkey hb
      exact ⟨j + 1, Nat.succ_lt_succ hj, hkey, by rw [hb, Nat.add_right_comm, Nat.add_assoc]⟩

/-- A packet in fragments. -/
theorem puts_numberFragments (hc : p.channels[pkt.channel.toNat]? = some c) {fp : Nat}
    (nowMs : U32) (hpos : 0 < fragCount fp pkt.data) :
    Puts (fun key b => ∃ j < fragCount fp pkt.data,
        key = (pkt.channel, c.outgoingReliableSeq + 1 + BitVec.ofNat 16 j)
          ∧ b = fragmentBytes pkt.channel (c.outgoingReliableSeq + 1) fp pkt.data
            (c.outgoingReliableSeq + 1 + BitVec.ofNat 16 j) j)
      p (p.numberFragments pkt fp nowMs).1 := by
  obtain ⟨n, hn⟩ := Nat.exists_eq_succ_of_ne_zero hpos.ne'
  obtain ⟨rest, hrest, hout, -⟩ := numberFragments_succ hc nowMs hn
  rw [hn]
  refine Puts.trans ?_ (.of_same hout)
  rw [hrest]
  refine Puts.trans (puts_storeNext p pkt.channel c _ nowMs ⟨0, Nat.succ_pos n, ?_, rfl⟩) ?_
  · rw [BitVec.add_zero]
  rw [BitVec.add_zero]
  refine (puts_fragmentLoop pkt.channel _ fp pkt.data nowMs n 1 _ c.nextReliableSeq (by decide)
    (storeNext_channel hc _ nowMs)).mono ?_
  rintro key b ⟨j, hj, hkey, hb⟩
  have hadd : c.nextReliableSeq.outgoingReliableSeq + 1 + BitVec.ofNat 16 j
      = c.outgoingReliableSeq + 1 + BitVec.ofNat 16 (j + 1) := Serial.add_one_add _ j
  rw [hadd] at hkey hb
  exact ⟨j + 1, Nat.succ_lt_succ hj, hkey, by rw [hb, Nat.add_comm 1 j]⟩

/-! ## §5. What goes out is stored. -/

theorem numberWhole_retains (p : PeerEntry) (pkt : Packet) (nowMs : U32) :
    (p.numberWhole pkt nowMs).1.Retains (p.numberWhole pkt nowMs).2 :=
  ⟨_, _, Std.ExtTreeMap.getElem?_insert_self, rfl⟩

/-- The loop leaves alone what is stored under other numbers. -/
theorem fragmentLoop_other (ch : U8) (startSeq : U16) (fp : Nat) (data : Bytes) (nowMs : U32)
    {key : U8 × U16} :
    ∀ (n i : Nat) (p : PeerEntry) (c : Channel), i ≠ 0 → p.channels[ch.toNat]? = some c →
      (∀ s ∈ Serial.block (c.outgoingReliableSeq + 1) n, key ≠ (ch, s)) →
      (fragmentLoop ch startSeq fp data nowMs n i p).1.outgoingReliable[key]?
        = p.outgoingReliable[key]? := by
  intro n
  induction n with
  | zero => exact fun _ _ _ _ _ _ => rfl
  | succ n ih =>
      intro i p c hi hc hkey
      rw [fragmentLoop_succ ch startSeq fp data nowMs n hi hc]
      refine (ih (i + 1) _ c.nextReliableSeq (Nat.succ_ne_zero i) (storeNext_channel hc _ nowMs)
        fun s hs => hkey s (List.mem_cons_of_mem _ hs)).trans ?_
      show (p.outgoingReliable.insert (ch, c.outgoingReliableSeq + 1) _)[key]? = _
      rw [Std.ExtTreeMap.getElem?_insert, if_neg]
      exact fun hcmp => hkey _ List.mem_cons_self (Std.LawfulEqCmp.eq_of_compare hcmp).symm

/-- What is stored before the rest of the loop stays, if its number is none of
the loop's. -/
theorem fragmentLoop_keeps (ch : U8) (startSeq : U16) (fp : Nat) (data : Bytes) (nowMs : U32)
    {n i : Nat} (hi : i ≠ 0) (cmd : Bytes) (hc : p.channels[ch.toNat]? = some c) (hn : n < 65536) :
    (fragmentLoop ch startSeq fp data nowMs n i (p.storeNext ch c cmd nowMs)).1.Retains cmd := by
  have hnew : c.outgoingReliableSeq + 1 ∉ Serial.block (c.outgoingReliableSeq + 1 + 1) n :=
    (List.nodup_cons.mp (Serial.nodup_block (w := 16) (c.outgoingReliableSeq + 1)
      (by omega : n + 1 ≤ 2 ^ 16))).1
  obtain ⟨r, hr, hbytes⟩ : ∃ r, (p.storeNext ch c cmd nowMs).outgoingReliable[
      (ch, c.outgoingReliableSeq + 1)]? = some r ∧ r.packetBytes = cmd :=
    ⟨_, Std.ExtTreeMap.getElem?_insert_self, rfl⟩
  refine ⟨(ch, c.outgoingReliableSeq + 1), r, ?_, hbytes⟩
  rw [← hr]
  refine fragmentLoop_other ch startSeq fp data nowMs n i _ c.nextReliableSeq hi
    (storeNext_channel hc cmd nowMs) ?_
  rintro s hs ⟨⟩
  exact hnew hs

theorem fragmentLoop_retains (ch : U8) (startSeq : U16) (fp : Nat) (data : Bytes) (nowMs : U32) :
    ∀ (n i : Nat) (p : PeerEntry) (c : Channel), i ≠ 0 → n ≤ 65536 →
      p.channels[ch.toNat]? = some c →
      ∀ b ∈ (fragmentLoop ch startSeq fp data nowMs n i p).2,
        (fragmentLoop ch startSeq fp data nowMs n i p).1.Retains b := by
  intro n
  induction n with
  | zero =>
      intro i p c _ _ _ b hb
      cases hb
  | succ n ih =>
      intro i p c hi hn hc b hb
      rw [fragmentLoop_succ ch startSeq fp data nowMs n hi hc] at hb ⊢
      rcases List.mem_cons.mp hb with rfl | hb
      · exact fragmentLoop_keeps ch startSeq fp data nowMs (Nat.succ_ne_zero i) _ hc (by omega)
      · exact ih (i + 1) _ c.nextReliableSeq (Nat.succ_ne_zero i) (by omega)
          (storeNext_channel hc _ nowMs) b hb

/-- **Every fragment that goes out is stored**, if their numbers differ. -/
theorem numberFragments_retains (hc : p.channels[pkt.channel.toNat]? = some c) {fp : Nat}
    (nowMs : U32) (hpos : 0 < fragCount fp pkt.data) (hn : fragCount fp pkt.data ≤ 65536) :
    ∀ b ∈ (p.numberFragments pkt fp nowMs).2, (p.numberFragments pkt fp nowMs).1.Retains b := by
  intro b hb
  obtain ⟨n, hcount⟩ := Nat.exists_eq_succ_of_ne_zero hpos.ne'
  obtain ⟨rest, hrest, hout, hcmds⟩ := numberFragments_succ hc nowMs hcount
  rw [Retains, hout]
  rw [hcmds] at hb
  subst hrest
  rcases List.mem_cons.mp hb with rfl | hb
  · exact fragmentLoop_keeps _ _ _ _ nowMs (by decide) _ hc (by omega)
  · exact fragmentLoop_retains _ _ _ _ nowMs n 1 _ c.nextReliableSeq (by decide) (by omega)
      (storeNext_channel hc _ nowMs) b hb

/-- A packet no longer than MAX_PACKET_SIZE has few enough fragments. -/
theorem fragCount_le_of_size (hr : InRange p) (ck : Bool)
    (hlen : pkt.data.length ≤ maxPacketSize) :
    fragCount (fragPayload p.mtu.toNat ck) pkt.data ≤ 65536 := by
  have hmtu : 576 ≤ p.mtu.toNat := hr.mtu
  have hhdr := HostTask.hdrOverhead_le ck
  have hfp : 544 ≤ fragPayload p.mtu.toNat ck := by
    unfold fragPayload
    omega
  by_contra hgt
  have hlt := (lt_fragCount_iff (i := 65536) (m := pkt.data)
    (by omega : 0 < fragPayload p.mtu.toNat ck)).mp (by omega)
  unfold maxPacketSize at hlen
  have hmul : 65536 * 544 ≤ 65536 * fragPayload p.mtu.toNat ck := Nat.mul_le_mul_left _ hfp
  omega

end PeerEntry

end EnetRs
