import Rocket.Foundation.History
import Rocket.Net.Coder.Genuine
import Rocket.Net.Tcp.ConnectionLoop

/-!
# What a server connection serves

The whole life of a connection of a server, as its peer sees it: the bytes that it sends,
and the requests that it decodes from what it receives.

The in-buffer of a connection always has a spare cell, since `moveWriteIndex` refuses the
last one. So `onRead` never finds it full and never makes it larger, and a request that
does not fit into it is never decoded. The out-buffer holds the replies to all requests,
one each and in their order, and what is written is always a part of these from the first
one on.
-/

namespace Rocket

open Foundation TinyPBProtocol

namespace TinyPBCoder

variable {b b' : TcpBuffer}

theorem Finds.message_pkLen_le {f : Found} {m : TinyPBProtocol} (hf : Finds b f)
    (hb : b.Proper) (hparse : (parse b.buffer f).value = some (some m)) :
    m.pkLen.toInt ≤ b.readAble := by
  obtain ⟨p, hp, hframe, rfl⟩ := exists_pieces hf.packet hb.write_lt_int hparse
  have hend := hf.packet.endIndex_eq_add hb.write_lt_int
  have hlen := congrArg List.length hframe
  rw [frame, List.length_take, p.length_frame] at hlen
  have hword : p.message.pkLen.toInt = p.length := toInt_ofNat_of_lt hp.length_lt
  have hle := hf.pkLen_le hb
  have hread := hb.read_le_write
  rw [TcpBuffer.readAble] at hle ⊢
  omega

/-- Every message that `decode` delivers has fitted into the buffer. -/
theorem pkLen_lt_of_decode (hb : b.Proper) {fuel : ℕ} {messages : List TinyPBProtocol}
    (h : decode fuel [] b = some (b', messages)) :
    ∀ m ∈ messages, m.pkLen.toInt < (b.buffer.length : ℤ) := by
  obtain ⟨t, hreaches, hleave⟩ := Loop.exists_run_eq_some_iff.1 ⟨fuel, h⟩
  cases eq_of_leave hleave
  refine (hreaches.invariant (I := fun t => t.1.Proper ∧ t.1.buffer.length = b.buffer.length ∧
    ∀ m ∈ t.2, m.pkLen.toInt < (b.buffer.length : ℤ)) ?_
    ⟨hb, rfl, List.forall_mem_nil _⟩).2.2
  rintro s s' ⟨hs, hlen, hmessages⟩ hagain
  obtain ⟨f, message, hf, hparse, hmove, hout⟩ := again_cases hs hagain
  refine ⟨Proper.of_again hs hagain, (TcpBuffer.length_moveReadIndex hmove).trans hlen, ?_⟩
  rw [hout, List.forall_mem_append]
  refine ⟨hmessages, fun m hm => ?_⟩
  obtain rfl := Option.mem_toList.1 hm
  have hle := hf.message_pkLen_le hs hparse
  have hwrite := hs.write_lt_length
  rw [TcpBuffer.readAble] at hle
  omega

end TinyPBCoder

namespace TcpConnection

variable {c c' : TcpConnection}

/-- A pass of `onRead` changes the in-buffer and the flag of the timer only, and keeps the
in-buffer as large as it is. -/
structure ReadKeeps (c c' : TcpConnection) : Prop where
  connectionType_eq : c'.connectionType = c.connectionType
  outBuffer_eq : c'.outBuffer = c.outBuffer
  replyMsg_eq : c'.replyMsg = c.replyMsg
  proper : c'.inBuffer.Proper
  length_eq : c'.inBuffer.buffer.length = c.inBuffer.buffer.length

/-- A pass of `onRead` whose in-buffer has a spare cell: the in-buffer is as it was, or what
`read` has returned has been received. -/
theorem readPass_cases {r : Hooked ReadResult} (hproper : c.inBuffer.Proper)
    (hint : c.inBuffer.buffer.length < 2 ^ 31)
    (h : c.readPass r = .again c' ∨ ∃ isClose, c.readPass r = .leave (c', isClose)) :
    received r = [] ∧ c' = fire c r.overTime ∨
      received r ≠ [] ∧ ((received r).length : ℤ) ≤ c.inBuffer.writeAble ∧
        ∃ b, c.inBuffer.receive (received r) = some b ∧
          c' = { fire c r.overTime with inBuffer := b } := by
  unfold readPass at h
  cases hgrow : growInBuffer c.inBuffer with
  | none => simp [hgrow] at h
  | some b =>
      have hb := growInBuffer_of_proper hproper hint hgrow
      subst hb
      simp only [hgrow] at h
      cases hr : r.result with
      | bytes bs =>
          have hbytes : received r = bs := by rw [received, hr]
          rw [hbytes]
          simp only [hr] at h
          by_cases hfit : bs = [] ∨ (bs.length : ℤ) > c.inBuffer.writeAble
          · simp [if_pos hfit] at h
          · simp only [if_neg hfit] at h
            rw [not_or, not_lt] at hfit
            cases hreceive : c.inBuffer.receive bs with
            | none => simp [hreceive] at h
            | some b' =>
                refine Or.inr ⟨hfit.1, hfit.2, b', rfl, ?_⟩
                simp only [hreceive] at h
                split_ifs at h <;> simp at h <;> exact h.symm
      | eof | eagain | error =>
          refine Or.inl ⟨by rw [received, hr], ?_⟩
          simp only [hr] at h
          simp at h
          exact h.symm

theorem readKeeps_of_readPass {r : Hooked ReadResult} (hproper : c.inBuffer.Proper)
    (hint : c.inBuffer.buffer.length < 2 ^ 31)
    (h : c.readPass r = .again c' ∨ ∃ isClose, c.readPass r = .leave (c', isClose)) :
    ReadKeeps c c' := by
  rcases readPass_cases hproper hint h with ⟨-, rfl⟩ | ⟨-, hfit, b, hreceive, rfl⟩
  · exact ⟨rfl, rfl, rfl, hproper, rfl⟩
  · exact ⟨rfl, rfl, rfl, hproper.receive hint hfit hreceive, TcpBuffer.length_receive hreceive⟩

theorem readable_of_readPass {r : Hooked ReadResult} (hproper : c.inBuffer.Proper)
    (hint : c.inBuffer.buffer.length < 2 ^ 31)
    (hshort : ((received r).length : ℤ) < c.inBuffer.writeAble)
    (h : c.readPass r = .again c' ∨ ∃ isClose, c.readPass r = .leave (c', isClose)) :
    c'.inBuffer.readable = c.inBuffer.readable ++ received r := by
  rcases readPass_cases hproper hint h with ⟨hnil, rfl⟩ | ⟨-, -, b, hreceive, rfl⟩
  · exact hnil ▸ (List.append_nil _).symm
  · obtain ⟨stale, spare, hlay⟩ := hproper.exists_layout
    have hlen := hlay.length_eq
    have hwrite := hlay.writeIndex_eq
    have hfree := hlay.writeAble_eq (by omega)
    obtain ⟨b', hb', hlay'⟩ := hlay.exists_receive (received r) (by omega) (by omega)
    rw [hreceive] at hb'
    cases hb'
    exact hlay'.readable_eq

theorem inBuffer_close (c : TcpConnection) (isClose : Bool) :
    (if isClose then c.clear else c).inBuffer = c.inBuffer := by
  unfold clear
  split_ifs <;> rfl

theorem ReadKeeps.close (h : ReadKeeps c c') (isClose : Bool) :
    ReadKeeps c (if isClose then c'.clear else c') := by
  unfold clear
  split_ifs
  · exact h
  · exact ⟨h.connectionType_eq, h.outBuffer_eq, h.replyMsg_eq, h.proper, h.length_eq⟩
  · exact h

/-- A pass of `onWrite` changes the flag of the timer only. -/
theorem eq_fire_of_writePass {r : Hooked WriteResult}
    (h : c.writePass r = .again c' ∨ c.writePass r = .leave c') : c' = fire c r.overTime := by
  unfold writePass at h
  cases hread : readBlock c.outBuffer.buffer c.outBuffer.readIndex c.outBuffer.readAble with
  | none => simp [hread] at h
  | some buf =>
      simp only [hread] at h
      cases hr : r.result with
      | accepted n =>
          simp only [hr] at h
          split_ifs at h <;> simp at h <;> exact h.symm
      | eagain =>
          simp only [hr] at h
          simp at h
          exact h.symm
      | error =>
          simp only [hr] at h
          split_ifs at h <;> simp at h <;> exact h.symm

theorem taken_isPrefix (live : Bytes) (r : Hooked WriteResult) : taken live r <+: live := by
  unfold taken
  split
  · exact List.take_prefix _ _
  · exact List.nil_prefix

end TcpConnection

/-- What a step of a connection comes to for its peer: the requests that have been decoded,
and the bytes that the socket has accepted. -/
structure Traffic where
  requests : List TinyPBProtocol := []
  sent : Bytes := []

namespace ConnectionLoop

open TcpConnection TinyPBCoder

variable {Method Message : Type} {d : RpcDispatcher Method Message} {l l' : ConnectionLoop}

def traffic (l : ConnectionLoop) : ConnectionOp → Traffic
  | .excute fuel =>
      { requests := ((decode fuel [] l.connection.inBuffer).map Prod.snd).getD [] }
  | .write r => { sent := taken l.connection.outBuffer.readable r }
  | _ => {}

def trafficMachine (d : RpcDispatcher Method Message) :
    Machine ConnectionLoop ConnectionOp Traffic where
  step l op := (step d l op).map fun p => (p.1, traffic l op)

def reply (d : RpcDispatcher Method Message) (request : TinyPBProtocol) : TinyPBProtocol :=
  (d.dispatch request {}).1

def replies (d : RpcDispatcher Method Message) (ts : List Traffic) : List TinyPBProtocol :=
  (ts.flatMap Traffic.requests).map (reply d)

/-- What a connection of a server has served: the in-buffer has its first size and a spare
cell, and every request has fitted into it; the out-buffer holds the replies to all
requests; and each `write` has sent a part of the replies so far, from the first one on. -/
structure Serves (d : RpcDispatcher Method Message) (size : ℕ) (l : ConnectionLoop)
    (ts : List Traffic) : Prop where
  connectionType_eq : l.connection.connectionType = .byServer
  inBuffer_proper : l.connection.inBuffer.Proper
  length_eq : l.connection.inBuffer.buffer.length = size
  fits : ∀ m ∈ ts.flatMap Traffic.requests, m.pkLen.toInt < (size : ℤ)
  outBuffer_sound : l.connection.outBuffer.Sound
  readable_eq : l.connection.outBuffer.readable = stream (replies d ts)
  sent : AtEach (fun before t => t.sent <+: stream (replies d before)) ts

section Step

variable {op : ConnectionOp} {o : ConnectionOutput} {size : ℕ} {ts : List Traffic}

theorem replies_append (ts : List Traffic) (t : Traffic) :
    replies d (ts ++ [t]) = replies d ts ++ t.requests.map (reply d) := by
  rw [replies, List.flatMap_append, List.flatMap_singleton, List.map_append]
  rfl

theorem Serves.silent (h : Serves d size l ts) {c : TcpConnection} (place : ConnectionPlace)
    (t : Traffic) (htype : c.connectionType = l.connection.connectionType)
    (hproper : c.inBuffer.Proper)
    (hlen : c.inBuffer.buffer.length = l.connection.inBuffer.buffer.length)
    (hout : c.outBuffer = l.connection.outBuffer) (hrequests : t.requests = [])
    (hsent : t.sent <+: l.connection.outBuffer.readable) :
    Serves d size { connection := c, place := place } (ts ++ [t]) := by
  have hreplies : replies d (ts ++ [t]) = replies d ts := by
    rw [replies_append, hrequests, List.map_nil, List.append_nil]
  refine ⟨htype.trans h.connectionType_eq, hproper, hlen.trans h.length_eq, ?_, ?_, ?_, ?_⟩
  · rw [List.flatMap_append, List.flatMap_singleton, hrequests, List.append_nil]
    exact h.fits
  · rw [hout]
    exact h.outBuffer_sound
  · rw [hout, hreplies]
    exact h.readable_eq
  · exact atEach_append_singleton.2 ⟨h.sent, h.readable_eq ▸ hsent⟩

theorem shutdown_inBuffer (c : TcpConnection) : c.shutdown.inBuffer = c.inBuffer ∧
    c.shutdown.outBuffer = c.outBuffer ∧ c.shutdown.connectionType = c.connectionType := by
  unfold shutdown
  split_ifs <;> exact ⟨rfl, rfl, rfl⟩

theorem Serves.excute (h : Serves d size l ts) {fuel : ℕ} {place : ConnectionPlace}
    {p : TcpConnection × List (Invocation Method Message)}
    (hexcute : l.connection.excute d fuel = some p) :
    Serves d size { connection := p.1, place := place } (ts ++ [traffic l (.excute fuel)]) := by
  rw [TcpConnection.excute, if_pos h.connectionType_eq] at hexcute
  obtain ⟨⟨inBuffer, result⟩, hdecode, hexcute⟩ := Option.bind_eq_some_iff.1 hexcute
  obtain ⟨⟨sent, outBuffer⟩, hencode, heq⟩ := Option.bind_eq_some_iff.1 hexcute
  cases heq
  obtain ⟨hproper, hlen⟩ := Proper.of_decode h.inBuffer_proper hdecode
  obtain ⟨hsound, hreadable, -⟩ := encode_spec h.outBuffer_sound hencode
  have hrequests : (traffic l (.excute fuel)).requests = result := by
    rw [traffic, hdecode]
    rfl
  refine ⟨h.connectionType_eq, hproper, hlen.trans h.length_eq, ?_, hsound, ?_, ?_⟩
  · rw [List.flatMap_append, List.flatMap_singleton, hrequests, List.forall_mem_append]
    exact ⟨h.fits, h.length_eq ▸ pkLen_lt_of_decode h.inBuffer_proper hdecode⟩
  · have hreplies : (result.map fun request => d.dispatch request {}).map Prod.fst =
        result.map (reply d) := List.map_map ..
    rw [replies_append, hrequests, stream_append, hreadable, h.readable_eq, hreplies]
  · exact atEach_append_singleton.2 ⟨h.sent, List.nil_prefix⟩

theorem Serves.step (h : Serves d size l ts) (hsize : size < 2 ^ 31)
    (hstep : ConnectionLoop.step d l op = some (l', o)) :
    Serves d size l' (ts ++ [traffic l op]) := by
  have hstay (place : ConnectionPlace) :
      Serves d size { connection := l.connection, place := place } (ts ++ [⟨[], []⟩]) :=
    h.silent place ⟨[], []⟩ rfl h.inBuffer_proper rfl rfl rfl List.nil_prefix
  have hint : l.connection.inBuffer.buffer.length < 2 ^ 31 := h.length_eq ▸ hsize
  cases stepped_of_step hstep with
  | returned | entered | skipsRead | reads | skipsWrite | writes | noData => exact hstay _
  | readAgain hplace hpass =>
      have hkeeps := readKeeps_of_readPass h.inBuffer_proper hint (Or.inl hpass)
      exact h.silent _ _ hkeeps.connectionType_eq hkeeps.proper hkeeps.length_eq hkeeps.outBuffer_eq
        rfl List.nil_prefix
  | @readLeave r p hplace hpass =>
      have hkeeps :=
        (readKeeps_of_readPass h.inBuffer_proper hint (Or.inr ⟨p.2, hpass⟩)).close p.2
      exact h.silent _ _ hkeeps.connectionType_eq hkeeps.proper hkeeps.length_eq
        hkeeps.outBuffer_eq rfl List.nil_prefix
  | excute hplace hexcute => exact h.excute hexcute
  | @writeAgain r c hplace hpass =>
      have hfire := eq_fire_of_writePass (Or.inl hpass)
      subst hfire
      exact h.silent _ _ rfl h.inBuffer_proper rfl rfl rfl (taken_isPrefix _ _)
  | @writeLeave r c hplace hdata hpass =>
      have hfire := eq_fire_of_writePass (Or.inr hpass)
      subst hfire
      exact h.silent _ _ rfl h.inBuffer_proper rfl rfl rfl (taken_isPrefix _ _)
  | shutdown =>
      obtain ⟨hin, hout, htype⟩ := shutdown_inBuffer l.connection
      exact h.silent _ _ htype (hin ▸ h.inBuffer_proper)
        (congrArg (fun b => b.buffer.length) hin) hout rfl List.nil_prefix

end Step

theorem serves_addClient (d : RpcDispatcher Method Message) (fd : ℤ) :
    Serves d 128 { connection := addClient fd } [] :=
  ⟨rfl, TcpBuffer.proper_new (by decide), List.length_replicate, List.forall_mem_nil _,
    TcpBuffer.sound_new (by decide), rfl, atEach_nil⟩

/-- In every run of the loops of a connection that `IOThread::addClient` has made, whatever its
peer sends and however the calls of the system end, the in-buffer keeps its 128 bytes and a
spare cell. No request that is longer than 127 bytes is decoded; the out-buffer holds the
replies to all requests that are, in their order; and each `write` sends a part of the replies
so far, from the first one on. -/
theorem serves_of_run (d : RpcDispatcher Method Message) (fd : ℤ) {ops : List ConnectionOp}
    {ts : List Traffic}
    (hrun : (trafficMachine d).run { connection := addClient fd } ops = some (l, ts)) :
    Serves d 128 l ts := by
  refine Machine.run_history (I := Serves d 128) ?_ ?_ hrun
  · intro l ts op l' t hserves hstep
    obtain ⟨⟨l₁, o⟩, hstep', heq⟩ := Option.map_eq_some_iff.1 hstep
    cases heq
    exact hserves.step (by decide) hstep'
  · exact serves_addClient d fd

/-- The two requests of the test arrive in two parts, and a failed `write` is tried again. -/
def orderOps : List ConnectionOp :=
  [.test, .onRead, .read { result := .bytes ((stream orderRequests).take 50) }, .excute 3,
    .onWrite, .write { result := .accepted 10 }, .write { result := .error },
    .write { result := .eagain }, .test, .onRead,
    .read { result := .bytes ((stream orderRequests).drop 50) }, .excute 3, .onWrite,
    .write { result := .accepted 20 }]

theorem serves_of_run_orders :
    ∃ l ts, (trafficMachine orderDispatcher).run { connection := addClient 7 } orderOps =
        some (l, ts) ∧
      (ts.flatMap Traffic.requests).map TinyPBProtocol.msgId = [ascii "1", ascii "2"] ∧
      Serves orderDispatcher 128 l ts := by
  have hrun : ((trafficMachine orderDispatcher).run { connection := addClient 7 } orderOps).map
      (fun p => (p.2.flatMap Traffic.requests).map TinyPBProtocol.msgId) =
      some [ascii "1", ascii "2"] := by
    decide +kernel
  obtain ⟨⟨l, ts⟩, hrun, hids⟩ := Option.map_eq_some_iff.1 hrun
  exact ⟨l, ts, hrun, hids, serves_of_run orderDispatcher 7 hrun⟩

end ConnectionLoop

end Rocket
