import Rocket.Foundation.PrefixCode
import Rocket.Net.Coder.TinyPBProtocol

/-!
# The pieces of a frame

A frame is a sequence of pieces: marks, integers, texts with their lengths in front,
the payload and the check sum. Its length field says where it ends, and the length of
the payload is what is left. So a frame determines its pieces. The packet of a message
is the frame of the pieces that the message is made of.
-/

namespace Rocket

open Foundation

namespace TinyPBProtocol

/-- The byte ranges of a frame, and the error code. -/
@[ext] structure Pieces where
  msgId : Bytes
  methodName : Bytes
  errCode : Int32
  errInfo : Bytes
  pbData : Bytes
  checkSum : Bytes
  deriving DecidableEq, Repr

namespace Pieces

def length (p : Pieces) : ℕ :=
  22 + p.msgId.length + p.methodName.length + p.errInfo.length + p.pbData.length +
    p.checkSum.length

def frame (p : Pieces) : Bytes :=
  [pbStart] ++ (wordBytes (.ofNat p.length) ++
    (wordBytes (.ofNat p.msgId.length) ++ (p.msgId ++
    (wordBytes (.ofNat p.methodName.length) ++ (p.methodName ++
    (wordBytes p.errCode ++
    (wordBytes (.ofNat p.errInfo.length) ++ (p.errInfo ++
    (p.pbData ++ (p.checkSum ++ [pbEnd]))))))))))

theorem length_frame (p : Pieces) : p.frame.length = p.length := by
  simp only [frame, length, List.length_append, List.length_singleton, length_wordBytes]
  omega

/-- The check sum is an integer, and the length of the frame is an `int`. -/
structure Sized (p : Pieces) : Prop where
  checkSum_eq : p.checkSum.length = 4
  length_lt : p.length < 2 ^ 31

theorem determines_word (x : Pieces → Int32) : Determines Sized (fun p => wordBytes (x p)) x :=
  .of_length (fun _ _ => rfl) fun _ _ h => wordBytes_injective h

theorem determines_text {γ : Type} {code : Pieces → Bytes} {f : Pieces → γ}
    (h : Determines Sized code f) {x : Pieces → Bytes} (hle : ∀ p, (x p).length ≤ p.length) :
    Determines Sized (fun p => code p ++ wordBytes (.ofNat (x p).length) ++ x p)
      fun p => (f p, x p) := by
  have hblock := (h.append (determines_word fun p => .ofNat (x p).length)).block (x := x)
    fun p q hp hq heq =>
      ofNat_injOn ((hle p).trans_lt hp.length_lt) ((hle q).trans_lt hq.length_lt)
        (Prod.mk.inj heq).2
  refine hblock.map fun p q _ _ heq => ?_
  obtain ⟨heq, hx⟩ := Prod.mk.inj heq
  exact Prod.ext (Prod.mk.inj heq).1 hx

theorem determines_frame : Determines Sized frame id := by
  have hmarks := (Determines.const (P := Sized) [pbStart]).append
    (determines_word fun p => .ofNat p.length)
  have hid := determines_text hmarks (x := msgId) fun p => by unfold length; omega
  have hname := determines_text hid (x := methodName) fun p => by unfold length; omega
  have hcode := hname.append (determines_word errCode)
  have hinfo := determines_text hcode (x := errInfo) fun p => by unfold length; omega
  -- all other lengths are known, so the length of the frame gives that of the payload
  have hdata := hinfo.block (x := pbData) fun p q hp hq heq => by
    simp only [Prod.mk.injEq] at heq
    obtain ⟨⟨⟨⟨⟨_, hlength⟩, hid⟩, hname⟩, _⟩, hinfo⟩ := heq
    have htotal := ofNat_injOn hp.length_lt hq.length_lt hlength
    unfold length at htotal
    rw [hid, hname, hinfo, hp.checkSum_eq, hq.checkSum_eq] at htotal
    omega
  have hsum := hdata.block (x := checkSum) fun p q hp hq _ =>
    hp.checkSum_eq.trans hq.checkSum_eq.symm
  have hend := hsum.append (Determines.const [pbEnd])
  have hframe : frame = fun p => [pbStart] ++ wordBytes (.ofNat p.length) ++
      wordBytes (.ofNat p.msgId.length) ++ p.msgId ++ wordBytes (.ofNat p.methodName.length) ++
      p.methodName ++ wordBytes p.errCode ++ wordBytes (.ofNat p.errInfo.length) ++ p.errInfo ++
      p.pbData ++ p.checkSum ++ [pbEnd] := by
    funext p
    simp only [frame, List.append_assoc]
  rw [hframe]
  refine hend.map fun p q _ _ heq => ?_
  simp only [Prod.mk.injEq] at heq
  obtain ⟨⟨⟨⟨⟨⟨⟨_, hid⟩, hname⟩, hcode⟩, hinfo⟩, hdata⟩, hsum⟩, _⟩ := heq
  exact Pieces.ext hid hname hcode hinfo hdata hsum

end Pieces

def pieces (m : TinyPBProtocol) : Pieces where
  msgId := m.msgId
  methodName := m.methodName
  errCode := m.errCode
  errInfo := m.errInfo
  pbData := m.pbData
  checkSum := wordBytes 1

theorem length_pieces (m : TinyPBProtocol) : m.pieces.length = m.packetLength := by
  simp only [Pieces.length, pieces, packetLength, length_wordBytes]
  omega

theorem packet_eq_frame (m : TinyPBProtocol) : m.packet = m.pieces.frame := by
  rw [packet, Pieces.frame, length_pieces]
  rfl

/-- The packet of a message can be allocated. -/
def Fits (m : TinyPBProtocol) : Prop := m.packetLength < 2 ^ 31

theorem Fits.sized_pieces {m : TinyPBProtocol} (h : m.Fits) : m.pieces.Sized :=
  ⟨rfl, (length_pieces m).trans_lt h⟩

theorem determines_packet : Determines Fits packet pieces := by
  intro m m' hm hm' s t heq
  rw [packet_eq_frame, packet_eq_frame] at heq
  exact Pieces.determines_frame _ _ hm.sized_pieces hm'.sized_pieces s t heq

end TinyPBProtocol

end Rocket
