import Rocket.Net.Coder.RoundTrip

/-!
# Garbage in front of the packets

The search passes over bytes without a start mark, but the read index is moved by the
length of the packet from where it was, not from where the packet starts. So what is
left behind the first packet is longer than the other packets by the length of the
garbage, and with no packet the garbage is not consumed at all.
-/

namespace Rocket

open Foundation

namespace TinyPBCoder

open TinyPBProtocol

/-- `decode` delivers each message once and in order and leaves nothing readable, and
after each pass that delivers a message, the packets of the messages behind it are what
is readable. -/
structure Resyncs (b : TcpBuffer) (out messages : List TinyPBProtocol) : Prop where
  delivers : ∃ fuel b', decode fuel out b = some (b', out ++ messages.map delivered) ∧
    b'.readable = []
  behindEnd : ∀ done m rest, messages = done ++ m :: rest → ∀ t t',
    Loop.Reaches decodeBody (b, out) t → Loop.Again decodeBody t t' →
      t.2 = out ++ done.map delivered → t'.2 = out ++ (done ++ [m]).map delivered →
        t'.1.readable = stream rest

/-- What is left of a buffer that held the packets of `messages`, and what has been
delivered. -/
def Drained (out messages : List TinyPBProtocol) (s : TcpBuffer × List TinyPBProtocol) : Prop :=
  ∃ done rest stale spare, messages = done ++ rest ∧ s.2 = out ++ done.map delivered ∧
    s.1.Layout stale (stream rest) spare ∧ s.1.Proper

section Resync

variable {b : TcpBuffer} {garbage stale spare : Bytes} {out messages : List TinyPBProtocol}

theorem Drained.again {t t' : TcpBuffer × List TinyPBProtocol}
    (henc : ∀ m ∈ messages, m.withMsgId.Encodable) (ht : Drained out messages t)
    (hagain : Loop.Again decodeBody t t') : Drained out messages t' := by
  obtain ⟨b, delivered'⟩ := t
  obtain ⟨done, rest, stale, spare, hsplit, hout, hlay, hproper⟩ := ht
  cases rest with
  | nil =>
      have hleave := leave_of_findsNone hproper (findsNone_of_empty hlay) delivered'
      rw [Loop.Again, hleave] at hagain
      cases hagain
  | cons m rest =>
      have hm : m.withMsgId.Encodable := henc m (by simp [hsplit])
      obtain ⟨b', stale', spare', _, hpass, hlay', hproper'⟩ := again_packet hlay hproper hm
      cases Loop.again_rightUnique hagain (hpass delivered')
      refine ⟨done ++ [m], rest, stale', spare', by simp [hsplit], ?_, hlay', hproper'⟩
      simp only at hout
      rw [hout, List.map_append, List.append_assoc]
      rfl

theorem resyncs_of_stream (henc : ∀ m ∈ messages, m.withMsgId.Encodable)
    (hlay : b.Layout stale (stream messages) spare) (hb : b.Proper) : Resyncs b out messages := by
  constructor
  · obtain ⟨b', stale', spare', hrun, hlay', _⟩ :=
      decode_stream henc hlay hb out (Nat.lt_succ_self messages.length)
    exact ⟨_, b', hrun, hlay'.readable_eq⟩
  · intro done m rest hsplit t t' hreach hagain _ hout
    have hstart : Drained out messages (b, out) :=
      ⟨[], messages, stale, spare, rfl, by simp, hlay, hb⟩
    have ht' : Drained out messages t' :=
      (hreach.tail hagain).invariant (fun _ _ ht h => ht.again henc h) hstart
    obtain ⟨done', rest', stale', spare', hsplit', hout', hlay', _⟩ := ht'
    have hmap := List.append_cancel_left (hout.symm.trans hout')
    have hlen : (done ++ [m]).length = done'.length := by
      simpa using congrArg List.length hmap
    have hall : (done ++ [m]) ++ rest = done' ++ rest' := by simp [← hsplit, hsplit']
    rw [hlay'.readable_eq, (List.append_inj hall hlen).2]

/-- Bytes without a start mark in front of the packets are not consumed. -/
theorem garbage_eq_nil (henc : ∀ m ∈ messages, m.withMsgId.Encodable) (hno : pbStart ∉ garbage)
    (hlay : b.Layout stale (garbage ++ stream messages) spare) (hb : b.Proper)
    (h : Resyncs b out messages) : garbage = [] := by
  cases messages with
  | nil =>
      obtain ⟨fuel, b', hrun, hread⟩ := h.delivers
      have hnone : FindsNone b := by
        intro i hi hmarks
        have hwrite := hlay.writeIndex_eq
        have hstart := hlay.readIndex_eq
        have hlt := hmarks.2
        rw [stream_nil, List.append_nil] at hwrite
        exact absurd hmarks.1 (getElem?_ne_pbStart hlay hno hi (by omega))
      cases fuel with
      | zero => cases hrun
      | succ fuel =>
          rw [decode_of_findsNone hb hnone, Option.some.injEq, Prod.mk.injEq] at hrun
          obtain ⟨rfl, _⟩ := hrun
          rwa [hlay.readable_eq, stream_nil, List.append_nil] at hread
  | cons m rest =>
      rw [stream_cons] at hlay
      obtain ⟨b', stale', spare', _, hpass, hlay', _⟩ :=
        again_packet_behind hno hlay hb (henc m List.mem_cons_self)
      have hread := h.behindEnd [] m rest rfl _ _ (.refl _) (hpass out) (by simp) rfl
      have hlen := congrArg List.length (hlay'.readable_eq.symm.trans hread)
      simp only [List.length_drop, List.length_append, length_packet] at hlen
      exact List.length_eq_zero_iff.1 (by omega)

end Resync

/-- Behind garbage that holds no start mark, the frames of a list of messages are decoded
as they should be if and only if the garbage is empty. -/
theorem resyncs_iff {messages : List TinyPBProtocol} {sent : List (Bytes × TinyPBProtocol)}
    (hsent : messages.mapM encodeTinyPB = some sent)
    (henc : ∀ m ∈ messages, m.withMsgId.Encodable) {garbage : Bytes} (hno : pbStart ∉ garbage)
    {b : TcpBuffer} (hb : b.Proper) (hread : b.readable = garbage ++ sent.flatMap Prod.fst)
    (out : List TinyPBProtocol) : Resyncs b out messages ↔ garbage = [] := by
  obtain ⟨stale, spare, hlay⟩ := hb.exists_layout
  rw [hread, sent_eq_of_mapM hsent, List.flatMap_map] at hlay
  constructor
  · exact garbage_eq_nil henc hno hlay hb
  · rintro rfl
    exact resyncs_of_stream henc hlay hb

/-- Two frames without garbage. -/
theorem resyncs_iff_two : Resyncs ⟨2, 87, [7, 7] ++ stream twoMessages ++ [0, 0]⟩ [] twoMessages :=
  (resyncs_iff (by decide : twoMessages.mapM encodeTinyPB =
    some (twoMessages.map fun m => (m.withMsgId.packet, m.withMsgId.withLengths)))
    twoMessages_encodable (by decide : pbStart ∉ ([] : Bytes)) (by decide) (by decide) []).2 rfl

/-- One byte in front of a frame: the message is delivered, and the end mark of the frame
stays readable. -/
theorem not_resyncs_byte :
    let m : TinyPBProtocol := { msgId := ascii "1", methodName := ascii "Order.makeOrder" }
    let b : TcpBuffer := ⟨0, 43, [7] ++ stream [m] ++ [0]⟩
    m.Encodable ∧ encodeTinyPB m = some (stream [m], m.withLengths) ∧ pbStart ∉ ([7] : Bytes) ∧
      b.Proper ∧ b.readable = [7] ++ stream [m] ∧
      (∃ b', decode 3 [] b = some (b', [m.delivered]) ∧ b'.readable = [pbEnd]) ∧
      ¬ Resyncs b [] [m] := by
  intro m b
  have hrun : (decode 3 [] b).map (fun r => (r.2, r.1.readable)) =
      some ([m.delivered], [pbEnd]) := by decide +kernel
  rcases Option.map_eq_some_iff.1 hrun with ⟨⟨b', delivered'⟩, hdecode, heq⟩
  obtain ⟨rfl, hread⟩ := Prod.mk.inj heq
  refine ⟨by decide, by decide, by decide, by decide, by decide, ⟨b', hdecode, hread⟩, ?_⟩
  intro hresyncs
  have hlay : b.Layout [] ([7] ++ stream [m]) [0] := ⟨rfl, rfl, by decide⟩
  exact absurd (garbage_eq_nil (by decide) (by decide) hlay (by decide) hresyncs) (by decide)

end TinyPBCoder

end Rocket
