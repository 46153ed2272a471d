import Rocket.Foundation.Machine
import Rocket.Net.Coder.RoundTrip

/-!
# Decoding a stream in pieces

`callMachine` receives the bytes of a stream chunk by chunk and calls `decode`
after each. `packetMachine` says what the calls are for: it knows the messages
that are to come, and takes the packets off the buffer that are complete. The
two agree as long as the search finds nothing in what is left, the beginning of
the next packet. It may find something there: it goes on into the payload of a
packet that is not complete, and reads a length field of which only the first
byte has arrived.
-/

namespace Rocket

open Foundation

namespace TinyPBCoder

open TinyPBProtocol

/-- The messages whose packets are complete in the first `n` bytes of their
stream. -/
def complete : List TinyPBProtocol → ℕ → List TinyPBProtocol
  | [], _ => []
  | m :: messages, n =>
      if m.withMsgId.packetLength ≤ n then
        m :: complete messages (n - m.withMsgId.packetLength)
      else []

def callStep (fuel : ℕ) (b : TcpBuffer) (chunk : Bytes) :
    Option (TcpBuffer × List TinyPBProtocol) :=
  (b.receive chunk).bind (decode fuel [])

def callMachine (fuel : ℕ) : Machine TcpBuffer Bytes (List TinyPBProtocol) := ⟨callStep fuel⟩

/-- Receive a chunk that leaves a spare cell and take off the packets that are
complete. The state holds the messages that are to come. -/
def packetStep (s : TcpBuffer × List TinyPBProtocol) (chunk : Bytes) :
    Option ((TcpBuffer × List TinyPBProtocol) × List TinyPBProtocol) :=
  if s.1.writeIndex + chunk.length < s.1.buffer.length then
    (s.1.receive chunk).bind fun b =>
      let done := complete s.2 b.readable.length
      (drain done b).map fun b' => ((b', s.2.drop done.length), done)
  else none

def packetMachine : Machine (TcpBuffer × List TinyPBProtocol) Bytes (List TinyPBProtocol) :=
  ⟨packetStep⟩

section Complete

theorem complete_append (done left : List TinyPBProtocol) (n : ℕ) :
    complete (done ++ left) ((stream done).length + n) = done ++ complete left n := by
  induction done with
  | nil => simp
  | cons m done ih =>
      rw [stream_cons, List.length_append, length_packet, List.cons_append, complete,
        if_pos (by omega), List.cons_append, ← ih]
      congr 2
      omega

/-- The bytes of a stream are the packets of the complete messages and the
beginning of the stream of the others. -/
theorem exists_of_prefix {messages : List TinyPBProtocol} {bytes : Bytes}
    (h : bytes <+: stream messages) :
    ∃ left rest, messages = complete messages bytes.length ++ left ∧
      bytes = stream (complete messages bytes.length) ++ rest ∧ rest <+: stream left := by
  induction messages generalizing bytes with
  | nil =>
      rw [stream_nil, List.prefix_nil] at h
      subst h
      exact ⟨[], [], rfl, rfl, List.prefix_refl _⟩
  | cons m messages ih =>
      by_cases hle : m.withMsgId.packetLength ≤ bytes.length
      · rw [stream_cons] at h
        obtain ⟨tail, rfl⟩ : m.withMsgId.packet <+: bytes :=
          List.prefix_of_prefix_length_le (List.prefix_append _ _) h (by simpa using hle)
        rw [List.prefix_append_right_inj] at h
        obtain ⟨left, rest, hleft, hrest, hpre⟩ := ih h
        have hcomplete : complete (m :: messages) (m.withMsgId.packet ++ tail).length =
            m :: complete messages tail.length := by
          simpa using complete_append [m] messages tail.length
        refine ⟨left, rest, ?_, ?_, hpre⟩
        · rw [hcomplete, List.cons_append, ← hleft]
        · rw [hcomplete, stream_cons, List.append_assoc, ← hrest]
      · have hnone : complete (m :: messages) bytes.length = [] := by
          rw [complete, if_neg hle]
        exact ⟨m :: messages, bytes, by rw [hnone]; rfl, by rw [hnone]; rfl, h⟩

end Complete

/-- A buffer of the given size that holds no complete packet of the messages to
come. -/
structure Holds (size : ℕ) (s : TcpBuffer × List TinyPBProtocol) : Prop where
  proper : s.1.Proper
  length_eq : s.1.buffer.length = size
  encodable : ∀ m ∈ s.2, m.withMsgId.Encodable
  incomplete : complete s.2 s.1.readable.length = []

theorem holds_new {size : ℕ} (hsize : 0 < size) {messages : List TinyPBProtocol}
    (henc : ∀ m ∈ messages, m.withMsgId.Encodable) : Holds size (.new size, messages) := by
  have hlay := TcpBuffer.layout_new size
  refine ⟨⟨le_rfl, ?_, Nat.two_pow_pos 31⟩, ?_, henc, ?_⟩
  · simpa [TcpBuffer.new] using hsize
  · simp [TcpBuffer.new]
  · cases messages with
    | nil => rfl
    | cons m messages =>
        have hge := m.withMsgId.packetLength_ge
        rw [hlay.readable_eq, complete, List.length_nil, if_neg (by omega)]

section Step

variable {size : ℕ} {s s' : TcpBuffer × List TinyPBProtocol} {done : List TinyPBProtocol}

/-- One step of the packet machine: the packets that are complete are those that
`decode` delivers first. -/
theorem packetStep_spec {chunk : Bytes} (hs : Holds size s) (hint : size < 2 ^ 31)
    (hpre : s.1.readable ++ chunk <+: stream s.2) (hstep : packetStep s chunk = some (s', done)) :
    Holds size s' ∧ s.2 = done ++ s'.2 ∧
      s.1.readable ++ chunk = stream done ++ s'.1.readable ∧
      done = complete s.2 (s.1.readable ++ chunk).length ∧
      ∃ b, s.1.receive chunk = some b ∧ ∀ fuel out,
        decode (done.length + fuel) out b = decode fuel (out ++ done.map delivered) s'.1 := by
  obtain ⟨hproper, hlength, henc, _⟩ := hs
  rcases Option.ite_none_right_eq_some.1 hstep with ⟨hspare, hbind⟩
  rcases Option.bind_eq_some_iff.1 hbind with ⟨b, hreceive, hmap⟩
  rcases Option.map_eq_some_iff.1 hmap with ⟨b', hdrain, heq⟩
  obtain ⟨stale, spare, hlay⟩ := hproper.exists_layout
  have hlen := hlay.length_eq
  have hwrite := hlay.writeIndex_eq
  obtain ⟨b₁, hb₁, hlay₁⟩ := hlay.exists_receive chunk (by omega) (by omega)
  rw [hreceive] at hb₁
  cases hb₁
  have hlen₁ := TcpBuffer.length_receive hreceive
  have hfree := hlay.writeAble_eq (by omega)
  have hproper₁ : b.Proper := hproper.receive (by omega) (by omega) hreceive
  rw [hlay₁.readable_eq] at hdrain heq
  cases heq
  obtain ⟨left, rest, hleft, hrest, _⟩ := exists_of_prefix hpre
  generalize hdone : complete s.2 (s.1.readable ++ chunk).length = done at *
  rw [hrest] at hlay₁
  have hencDone : ∀ m ∈ done, m.withMsgId.Encodable := fun m hm =>
    henc m (hleft ▸ List.mem_append_left left hm)
  obtain ⟨b₂, stale', spare', hb₂, hdecode, hlay', hproper'⟩ :=
    decode_drain hencDone hlay₁ hproper₁
  rw [hdrain] at hb₂
  cases hb₂
  have hdrop : s.2.drop done.length = left := by rw [hleft, List.drop_left]
  refine ⟨⟨hproper', ?_, ?_, ?_⟩, ?_, ?_, rfl, b, hreceive, hdecode⟩
  · rw [length_drain hdrain, hlen₁, hlength]
  · intro m hm
    exact henc m (List.mem_of_mem_drop hm)
  · rw [hrest, hleft, List.length_append, complete_append] at hdone
    rw [hdrop, hlay'.readable_eq]
    simpa using hdone
  · rw [hdrop, hleft]
  · rw [hrest, hlay'.readable_eq]

/-- What the packet machine has put out after the chunks `read`, and what it
holds. -/
theorem packetMachine_run_spec {read : List Bytes} {outs : List (List TinyPBProtocol)}
    (hs : Holds size s) (hint : size < 2 ^ 31)
    (hpre : s.1.readable ++ read.flatten <+: stream s.2)
    (hrun : packetMachine.run s read = some (s', outs)) :
    Holds size s' ∧ s.2 = outs.flatten ++ s'.2 ∧
      s.1.readable ++ read.flatten = stream outs.flatten ++ s'.1.readable ∧
      outs.flatten = complete s.2 (s.1.readable ++ read.flatten).length := by
  induction read generalizing s outs with
  | nil =>
      cases hrun
      refine ⟨hs, by simp, by simp, ?_⟩
      rw [List.flatten_nil, List.flatten_nil, List.append_nil, hs.incomplete]
  | cons chunk read ih =>
      obtain ⟨s₁, done, outs', hstep, hrest, rfl⟩ :=
        (Machine.run_cons_eq_some_iff packetMachine s chunk read s' outs).1 hrun
      rw [List.flatten_cons, ← List.append_assoc] at hpre
      obtain ⟨hs₁, hpending, hbytes, hdone, _⟩ :=
        packetStep_spec hs hint ((List.prefix_append _ _).trans hpre) hstep
      rw [hbytes, hpending, stream_append, List.append_assoc, List.prefix_append_right_inj] at hpre
      obtain ⟨hs', hpending', hbytes', hdone'⟩ := ih hs₁ hpre hrest
      refine ⟨hs', ?_, ?_, ?_⟩
      · rw [List.flatten_cons, List.append_assoc, ← hpending', hpending]
      · rw [List.flatten_cons, List.flatten_cons, ← List.append_assoc, hbytes, List.append_assoc,
          hbytes', stream_append, List.append_assoc]
      · rw [List.flatten_cons, List.flatten_cons, ← List.append_assoc, hbytes, List.append_assoc,
          List.length_append, hpending, complete_append, hdone']

/-- As long as the search finds nothing in what the packet machine holds, the
calls deliver what it puts out. -/
theorem callMachine_run_of_findsNone {read : List Bytes} {outs : List (List TinyPBProtocol)}
    (hs : Holds size s) (hint : size < 2 ^ 31)
    (hpre : s.1.readable ++ read.flatten <+: stream s.2) {fuel : ℕ} (hfuel : s.2.length < fuel)
    (hrun : packetMachine.run s read = some (s', outs))
    (hquiet : ∀ r t os, r <+: read → r ≠ [] → packetMachine.run s r = some (t, os) →
      FindsNone t.1) :
    (callMachine fuel).run s.1 read = some (s'.1, outs.map fun done => done.map delivered) := by
  induction read generalizing s outs with
  | nil =>
      cases hrun
      rfl
  | cons chunk read ih =>
      obtain ⟨s₁, done, outs', hstep, hrest, rfl⟩ :=
        (Machine.run_cons_eq_some_iff packetMachine s chunk read s' outs).1 hrun
      rw [List.flatten_cons, ← List.append_assoc] at hpre
      obtain ⟨hs₁, hpending, hbytes, hdone, b, hreceive, hdecode⟩ :=
        packetStep_spec hs hint ((List.prefix_append _ _).trans hpre) hstep
      rw [hbytes, hpending, stream_append, List.append_assoc, List.prefix_append_right_inj] at hpre
      rw [hpending, List.length_append] at hfuel
      have hfirst : packetMachine.run s [chunk] = some (s₁, [done]) :=
        Machine.run_cons hstep rfl
      have hcall : (callMachine fuel).step s.1 chunk = some (s₁.1, done.map delivered) := by
        obtain ⟨n, rfl⟩ : ∃ n, fuel = done.length + (n + 1) := ⟨fuel - done.length - 1, by omega⟩
        have hnone := hquiet [chunk] s₁ [done] (by simp) (by simp) hfirst
        simp only [callMachine, callStep, hreceive, Option.bind_some, hdecode,
          decode_of_findsNone hs₁.proper hnone, List.nil_append]
      have hcalls := ih hs₁ hpre (by omega) hrest fun r t os hr _ hrunr =>
        hquiet (chunk :: r) t (done :: os) (by simpa using hr) (by simp)
          (Machine.run_cons hstep hrunr)
      exact Machine.run_cons hcall hcalls

end Step

/-- The calls for the chunks `read` have delivered exactly the messages whose
packets are complete, and have left the rest of the bytes in the buffer. -/
def Delivers (fuel size : ℕ) (messages : List TinyPBProtocol) (read : List Bytes) : Prop :=
  ∃ b outs, (callMachine fuel).run (.new size) read = some (b, outs) ∧
    outs.flatten = (complete messages read.flatten.length).map delivered ∧
    b.readable = read.flatten.drop (stream (complete messages read.flatten.length)).length

/-- In what is left of the chunks after each call the search finds nothing. -/
def Undisturbed (size : ℕ) (messages : List TinyPBProtocol) (chunks : List Bytes) : Prop :=
  ∀ read s outs, read <+: chunks → read ≠ [] →
    packetMachine.run (.new size, messages) read = some (s, outs) → FindsNone s.1

instance (size : ℕ) (messages : List TinyPBProtocol) (chunks : List Bytes) :
    Decidable (Undisturbed size messages chunks) :=
  decidable_of_iff (∀ read ∈ chunks.inits, read ≠ [] →
      ∀ p ∈ packetMachine.run (.new size, messages) read, FindsNone p.1.1) <| by
    constructor
    · intro h read s outs hread hne hrun
      exact h read ((List.mem_inits read chunks).2 hread) hne (s, outs) hrun
    · intro h read hread hne p hp
      exact h read p.1 p.2 ((List.mem_inits read chunks).1 hread) hne hp

/-- In an undisturbed run over a stream, however it is cut, every call delivers
exactly the messages whose packets have become complete, and leaves the
beginning of the next packet in the buffer; all calls together deliver all
messages. -/
theorem delivers_of_undisturbed {messages : List TinyPBProtocol}
    (henc : ∀ m ∈ messages, m.withMsgId.Encodable) {chunks : List Bytes}
    (hcut : chunks.flatten = stream messages) {size : ℕ} (hsize : 0 < size)
    (hint : size < 2 ^ 31)
    (hspare : (packetMachine.run (.new size, messages) chunks).isSome)
    (hquiet : Undisturbed size messages chunks) {fuel : ℕ} (hfuel : messages.length < fuel) :
    (∀ read, read <+: chunks → Delivers fuel size messages read) ∧
      complete messages chunks.flatten.length = messages := by
  have hs := holds_new hsize henc
  have hempty : (TcpBuffer.new size).readable = [] := (TcpBuffer.layout_new size).readable_eq
  constructor
  · rintro read ⟨later, rfl⟩
    rcases Option.isSome_iff_exists.1 hspare with ⟨⟨t, outs⟩, hrun⟩
    obtain ⟨s, outs₁, _, hread, _, _⟩ :=
      (Machine.run_append_eq_some_iff packetMachine _ read later t outs).1 hrun
    have hpre : (TcpBuffer.new size).readable ++ read.flatten <+: stream messages := by
      rw [hempty, List.nil_append, ← hcut, List.flatten_append]
      exact List.prefix_append _ _
    obtain ⟨_, _, hbytes, hdone⟩ := packetMachine_run_spec hs hint hpre hread
    have hcalls := callMachine_run_of_findsNone hs hint hpre hfuel hread
      fun r t os hr hne hrunr => hquiet r t os (hr.trans (List.prefix_append _ _)) hne hrunr
    simp only [hempty, List.nil_append] at hbytes hdone
    refine ⟨s.1, _, hcalls, ?_, ?_⟩
    · rw [← hdone, List.map_flatten]
    · rw [← hdone, hbytes, List.drop_left]
  · have hall := complete_append messages [] 0
    rw [List.append_nil, Nat.add_zero, ← hcut] at hall
    simpa [complete] using hall

/-- A message that is cut behind its start mark and in its payload. -/
theorem delivers_of_undisturbed_cut :
    (∀ read, read <+: [(stream [{ msgId := [49], pbData := [5, 6, 7] }]).take 1,
          ((stream [{ msgId := [49], pbData := [5, 6, 7] }]).drop 1).take 23,
          (stream [{ msgId := [49], pbData := [5, 6, 7] }]).drop 24] →
        Delivers 2 64 [{ msgId := [49], pbData := [5, 6, 7] }] read) ∧
      complete [{ msgId := [49], pbData := [5, 6, 7] }] 30 =
        [{ msgId := [49], pbData := [5, 6, 7] }] := by
  exact delivers_of_undisturbed (by decide) (by decide) (by decide) (by decide) (by decide)
    (by decide) (by decide)

/-- A message whose payload looks like a packet without fields. -/
def embedded : TinyPBProtocol := { msgId := ascii "1", pbData := [2, 0, 0, 0, 6, 3] }

def embeddedCut : List Bytes := [(stream [embedded]).take 28, (stream [embedded]).drop 28]

/-- The first call consumes the payload as a packet, and the message is never
delivered. -/
theorem not_delivers_embeddedCut :
    embedded.withMsgId.Encodable ∧ embeddedCut.flatten = stream [embedded] ∧
      (∃ b, (callMachine 10).run (.new 128) embeddedCut = some (b, [[], []])) ∧
      ¬ Delivers 10 128 [embedded] embeddedCut := by
  have hrun : ((callMachine 10).run (.new 128) embeddedCut).map Prod.snd = some [[], []] := by
    decide +kernel
  rcases Option.map_eq_some_iff.1 hrun with ⟨⟨b, outs⟩, hcalls, houts⟩
  simp only at houts
  subst houts
  refine ⟨by decide, by decide,
    ⟨b, hcalls⟩, ?_⟩
  rintro ⟨b', outs', hcalls', houts', _⟩
  rw [hcalls] at hcalls'
  cases hcalls'
  exact absurd houts' (by decide)

end TinyPBCoder

end Rocket
