import Rocket.Net.Rpc.Session
import Rocket.Net.Tcp.Reply

/-!
# The first call of a session

The in-buffers of both ends have 128 cells, keep one of them spare, and are never made larger.
So the first call of a session, with a message id and with texts that the decoder has room for,
can be answered exactly if neither the packet of its request nor that of its reply has more than
127 bytes (`answered_iff`). If they are that small, nothing is in the way: both of them are
written and read in one piece.
-/

namespace Rocket

open Foundation TinyPBProtocol TinyPBCoder

section Packet

variable {m : TinyPBProtocol} {b : TcpBuffer}

theorem exists_encode_new (hfits : m.withMsgId.packetLength < 128) :
    ∃ messages b, encode [m] (.new 128) = some (messages, b) ∧ b.Sound ∧
      b.readable = m.withMsgId.packet := by
  have hlay := TcpBuffer.layout_new 128
  have hlen := m.withMsgId.length_packet
  have hspare : (List.replicate 128 (0 : UInt8)).length = 128 := List.length_replicate
  obtain ⟨b, _, _, hwrite, hlay', -, -⟩ :=
    hlay.exists_writeToBuffer m.withMsgId.packet (by omega) (Or.inl (by omega))
  have hencode : encode [m] (.new 128) = some ([m.withMsgId.withLengths], b) := by
    rw [encode_cons, if_pos (by omega), hwrite]
    rfl
  have hsound := (TcpBuffer.sound_new (by decide)).writeToBuffer (by omega) hwrite
  exact ⟨_, b, hencode, hsound.1, hlay'.readable_eq⟩

/-- A buffer that holds one packet: `decode` delivers its message, and nothing is left. -/
theorem exists_decode_packet (hm : m.Encodable) (hproper : b.Proper)
    (hreadable : b.readable = m.withMsgId.packet) :
    ∃ b', decode 2 [] b = some (b', [m.delivered]) ∧ b'.readable = [] ∧
      ∀ b₁ ∈ drain [m] b, FindsNone b₁ := by
  have henc : ∀ m' ∈ [m], m'.withMsgId.Encodable := List.forall_mem_singleton.2 hm.withMsgId
  obtain ⟨stale, spare, hlay⟩ := hproper.exists_layout
  have hstream : b.readable = stream [m] ++ [] := by
    rw [hreadable, stream_cons, stream_nil, List.append_nil, List.append_nil]
  rw [hstream] at hlay
  obtain ⟨b', _, _, hdrain, hdecode, hlay', hproper'⟩ := decode_drain henc hlay hproper
  have hnone := findsNone_of_empty hlay'
  refine ⟨b', ?_, hlay'.readable_eq, fun b₁ hb₁ => ?_⟩
  · have hrun := hdecode 1 []
    rw [decode_of_findsNone hproper' hnone] at hrun
    exact hrun
  · cases hdrain.symm.trans hb₁
    exact hnone

end Packet

namespace TcpConnection

variable {c : TcpConnection}

theorem fire_false (c : TcpConnection) : fire c false = c := by
  rw [fire, Bool.or_false]

/-- A `write` that takes the whole of the out-buffer. -/
theorem writePass_whole (hsound : c.outBuffer.Sound) :
    c.writePass { result := .accepted c.outBuffer.readable.length } = .leave c := by
  obtain ⟨stale, spare, hlay⟩ := hsound.exists_layout
  have hread := hlay.readBlock_live
  have hsize : c.outBuffer.readAble = c.outBuffer.readable.length := hlay.readAble_eq
  unfold writePass
  rw [hread]
  simp only
  rw [if_neg (by omega), if_pos (by omega), fire_false]

/-- A `read` into an in-buffer that has room for more. -/
theorem exists_readPass (bytes : Bytes) (hproper : c.inBuffer.Proper)
    (hint : c.inBuffer.buffer.length < 2 ^ 31) (hne : bytes ≠ [])
    (hfit : (bytes.length : ℤ) < c.inBuffer.writeAble) :
    ∃ b, c.readPass { result := .bytes bytes } =
        .leave ({ c with inBuffer := b }, false) ∧ b.Proper ∧
      b.readable = c.inBuffer.readable ++ bytes := by
  obtain ⟨stale, spare, hlay⟩ := hproper.exists_layout
  have hlen := hlay.length_eq
  have hwrite := hlay.writeIndex_eq
  have hlt := hproper.write_lt_length
  have hfree := hlay.writeAble_eq (by omega)
  obtain ⟨b, hreceive, hlay'⟩ := hlay.exists_receive bytes (by omega) (by omega)
  refine ⟨b, ?_, hproper.receive hint (by omega) hreceive, hlay'.readable_eq⟩
  have hmore : ¬ (bytes = [] ∨ (bytes.length : ℤ) > c.inBuffer.writeAble) := by
    rintro (hnil | hgt)
    · exact hne hnil
    · omega
  simp only [readPass, growInBuffer_of_spare hlay (by omega) hint, if_neg hmore, hreceive]
  rw [if_neg (by omega), fire_false]

theorem exists_excute {Method Message : Type} {d : RpcDispatcher Method Message}
    (hserver : c.connectionType = .byServer) {fuel : ℕ} {request : TinyPBProtocol}
    {b b' : TcpBuffer} (hdecode : decode fuel [] c.inBuffer = some (b, [request]))
    {messages : List TinyPBProtocol}
    (hencode : encode [ConnectionLoop.reply d request] c.outBuffer = some (messages, b')) :
    ∃ calls, c.excute d fuel = some ({ c with inBuffer := b, outBuffer := b' }, calls) := by
  have hreply : encode [(d.dispatch request {}).1] c.outBuffer = some (messages, b') := hencode
  refine ⟨[request].flatMap fun request => (d.dispatch request {}).2, ?_⟩
  rw [excute, if_pos hserver, hdecode]
  simp only [Option.bind_eq_bind, Option.bind_some, List.map_cons, List.map_nil, hreply]
  rfl

end TcpConnection

namespace Session

open TcpConnection ConnectionLoop

variable {Method Message : Type} {d : RpcDispatcher Method Message} {s s' s'' : Session}
  {ops ops' : List SessionOp} {outs outs' : List (Option (Bytes × TinyPBProtocol))}

def CleanRun (d : RpcDispatcher Method Message) (s : Session) (ops : List SessionOp) (s' : Session)
    (outs : List (Option (Bytes × TinyPBProtocol))) : Prop :=
  (machine d).Meets Clean s ops ∧ (machine d).run s ops = some (s', outs)

theorem CleanRun.nil (d : RpcDispatcher Method Message) (s : Session) : CleanRun d s [] s [] :=
  ⟨trivial, rfl⟩

theorem CleanRun.cons {op : SessionOp} {out : Option (Bytes × TinyPBProtocol)}
    (hstep : step d s op = some (s', out)) (hclean : Clean s op)
    (h : CleanRun d s' ops s'' outs) : CleanRun d s (op :: ops) s'' (out :: outs) := by
  have hstep' : (machine d).step s op = some (s', out) := hstep
  exact ⟨(Machine.meets_cons hstep').2 ⟨hclean, h.1⟩, Machine.run_cons hstep' h.2⟩

theorem CleanRun.append (h : CleanRun d s ops s' outs) (h' : CleanRun d s' ops' s'' outs') :
    CleanRun d s (ops ++ ops') s'' (outs ++ outs') :=
  ⟨(Machine.meets_append h.2).2 ⟨h.1, h'.1⟩,
    (Machine.run_append_eq_some_iff ..).2 ⟨s', outs, outs', h.2, h'.2, rfl⟩⟩

theorem step_client {op : ClientOp} {c : TcpConnection} {out : Option (Bytes × TinyPBProtocol)}
    {f g : Flow} (hclient : s.client.clientStep d op = some (c, out))
    (hflows : s.clientFlows op = some (f, g)) :
    step d s (.client op) = some ({ s with
      client := c, requests := s.requests ++ op.encoded, toServer := f, toClient := g }, out) := by
  rw [step, hclient, Option.bind_eq_bind, Option.bind_some, hflows]
  rfl

theorem step_server {op : ConnectionOp} {l : ConnectionLoop} {o : ConnectionOutput} {f g : Flow}
    (hserver : ConnectionLoop.step d s.server op = some (l, o))
    (hflows : s.serverFlows d op = some (f, g)) :
    step d s (.server op) =
      some ({ s with server := l, toServer := f, toClient := g }, none) := by
  rw [step, hserver, Option.bind_eq_bind, Option.bind_some, hflows]
  rfl

section Flow

variable {f : Flow} {live : Bytes}

theorem taken_whole (live : Bytes) : taken live { result := .accepted live.length } = live :=
  List.take_length

theorem write_whole (f : Flow) (messages : List TinyPBProtocol) (live : Bytes) :
    f.write messages live { result := .accepted live.length } =
      { f with sent := f.sent ++ messages, wire := f.wire ++ live } := by
  rw [Flow.write, taken_whole, if_pos rfl]

theorem read_whole (f : Flow) :
    f.read { result := .bytes f.wire } = some { f with wire := [] } := by
  have hreceived : received { result := .bytes f.wire } = f.wire := rfl
  rw [Flow.read, hreceived, if_pos (List.prefix_refl _), List.drop_length]

theorem settles_of_packet {m : TinyPBProtocol} {b : TcpBuffer} (hdue : f.due = [m])
    (hreadable : b.readable = m.withMsgId.packet) (hquiet : ∀ b₁ ∈ drain [m] b, FindsNone b₁) :
    f.Settles b := by
  have hcomplete : complete [m] m.withMsgId.packet.length = [m] := by
    rw [complete, length_packet, if_pos le_rfl, complete]
  rw [Flow.Settles, hdue, hreadable, hcomplete]
  exact hquiet

end Flow

section FirstCall

variable {m : TinyPBProtocol}

def firstCall (m : TinyPBProtocol) (fd : ℤ) (outBuffer : TcpBuffer) (server : ConnectionLoop)
    (toServer toClient : Flow) : Session where
  client := { TcpConnection.new fd 128 .byClient with state := .connected, outBuffer := outBuffer }
  server := server
  requests := [m]
  toServer := toServer
  toClient := toClient

def serving (fd' : ℤ) (inBuffer outBuffer : TcpBuffer) (place : ConnectionPlace) :
    ConnectionLoop where
  connection := { TcpConnection.addClient fd' with inBuffer := inBuffer, outBuffer := outBuffer }
  place := place

def requested (m : TinyPBProtocol) (fd fd' : ℤ) (outBuffer : TcpBuffer) : Session :=
  firstCall m fd outBuffer (serving fd' (.new 128) (.new 128) .test)
    { sent := [m], wire := m.withMsgId.packet } {}

def answered (d : RpcDispatcher Method Message) (m : TinyPBProtocol) (fd : ℤ)
    (outBuffer : TcpBuffer) (server : ConnectionLoop) : Session :=
  firstCall m fd outBuffer server { sent := [m], arrived := [m.delivered] }
    { sent := [reply d m.delivered], wire := (reply d m.delivered).withMsgId.packet }

theorem exists_cleanRun_requested (d : RpcDispatcher Method Message) (fd fd' : ℤ) (hm : m.Encodable)
    (hfits : m.withMsgId.packetLength < 128) :
    ∃ outBuffer ops outs, CleanRun d (new fd fd') ops (requested m fd fd' outBuffer) outs := by
  obtain ⟨messages, b, hencode, hsound, hreadable⟩ := exists_encode_new hfits
  have hencoded : step d (new fd fd') (.client (.encode m)) = some ({ new fd fd' with
      client := { (new fd fd').client with outBuffer := b }, requests := [m] }, none) := by
    refine step_client ?_ rfl
    have hnew : encode [m] (new fd fd').client.outBuffer = some (messages, b) := hencode
    rw [clientStep, hnew]
    rfl
  have hconnected : step d { new fd fd' with
      client := { (new fd fd').client with outBuffer := b }, requests := [m] }
      (.client (.connect { result := .success })) = some ({ new fd fd' with
        client := { (new fd fd').client with state := .connected, outBuffer := b }
        requests := [m] }, none) :=
    step_client rfl rfl
  have hwritten : step d { new fd fd' with
      client := { (new fd fd').client with state := .connected, outBuffer := b }
      requests := [m] } (.client (.write { result := .accepted b.readable.length })) =
        some (requested m fd fd' b, none) := by
    have hpass : { (new fd fd').client with state := .connected, outBuffer := b }.clientStep d
        (.write { result := .accepted b.readable.length }) =
          some ({ (new fd fd').client with state := .connected, outBuffer := b }, none) := by
      rw [clientStep, writePass_whole hsound]
    rw [step_client hpass rfl, write_whole, hreadable]
    rfl
  exact ⟨b, _, _, .cons hencoded hm (.cons hconnected trivial
    (.cons hwritten (Or.inl (taken_whole _)) (.nil d _)))⟩

theorem exists_cleanRun_answered (d : RpcDispatcher Method Message) (fd fd' : ℤ) (hm : m.Encodable)
    (hfits : m.withMsgId.packetLength < 128)
    (hfits' : (reply d m.delivered).withMsgId.packetLength < 128) (outBuffer : TcpBuffer) :
    ∃ server ops outs, CleanRun d (requested m fd fd' outBuffer) ops
      (answered d m fd outBuffer server) outs := by
  have hproper : (TcpBuffer.new 128).Proper := TcpBuffer.proper_new (by decide)
  have hsize : (TcpBuffer.new 128).buffer.length = 128 := List.length_replicate
  have hroom : (TcpBuffer.new 128).writeAble = 128 := by decide +kernel
  have hlen := m.withMsgId.length_packet
  obtain ⟨b₁, hpass, hproper₁, hreadable₁⟩ := exists_readPass (c := .addClient fd')
    m.withMsgId.packet hproper (hsize.trans_lt (by decide)) (List.cons_ne_nil _ _)
    (hroom.symm ▸ (by omega))
  obtain ⟨b₂, hdecode, -, hquiet⟩ := exists_decode_packet hm hproper₁ hreadable₁
  obtain ⟨messages, b₃, hencode, hsound, hreadable₃⟩ := exists_encode_new hfits'
  have hdata₃ : b₃.readAble ≠ 0 := by
    have hge := (reply d m.delivered).withMsgId.packetLength_ge
    have hlen₃ := (reply d m.delivered).withMsgId.length_packet
    obtain ⟨stale, spare, hlay⟩ := hsound.exists_layout
    rw [hlay.readAble_eq, hreadable₃]
    omega
  have htest : step d (requested m fd fd' outBuffer) (.server .test) =
      some (firstCall m fd outBuffer (serving fd' (.new 128) (.new 128) .onRead)
        { sent := [m], wire := m.withMsgId.packet } {}, none) :=
    step_server rfl rfl
  have honRead : step d (firstCall m fd outBuffer (serving fd' (.new 128) (.new 128) .onRead)
      { sent := [m], wire := m.withMsgId.packet } {}) (.server .onRead) =
        some (firstCall m fd outBuffer (serving fd' (.new 128) (.new 128) .reading)
          { sent := [m], wire := m.withMsgId.packet } {}, none) :=
    step_server rfl rfl
  have hread : step d (firstCall m fd outBuffer (serving fd' (.new 128) (.new 128) .reading)
      { sent := [m], wire := m.withMsgId.packet } {})
      (.server (.read { result := .bytes m.withMsgId.packet })) =
        some (firstCall m fd outBuffer (serving fd' b₁ (.new 128) .excute)
          { sent := [m] } {}, none) := by
    refine step_server (o := .read m.withMsgId.packet.length false) ?_ ?_
    · have hpass' : (serving fd' (.new 128) (.new 128) .reading).connection.readPass
          { result := .bytes m.withMsgId.packet } = .leave
            ((serving fd' b₁ (.new 128) .excute).connection, false) := hpass
      simp only [firstCall, ConnectionLoop.step, hpass']
      rfl
    · simp only [serverFlows, firstCall]
      rw [read_whole { sent := [m], wire := m.withMsgId.packet }]
      rfl
  have hexcute : step d (firstCall m fd outBuffer (serving fd' b₁ (.new 128) .excute)
      { sent := [m] } {}) (.server (.excute 2)) =
        some (firstCall m fd outBuffer (serving fd' b₂ b₃ .onWrite)
          { sent := [m], arrived := [m.delivered] } {}, none) := by
    refine step_server (o := .silent) ?_ ?_
    · obtain ⟨calls, hdone⟩ := exists_excute (d := d)
        (c := (serving fd' b₁ (.new 128) .excute).connection) rfl hdecode hencode
      simp only [firstCall, ConnectionLoop.step, hdone]
      rfl
    · have hin : decode 2 [] (serving fd' b₁ (.new 128) .excute).connection.inBuffer =
          some (b₂, [m.delivered]) := hdecode
      simp only [serverFlows, firstCall, Flow.decode, hin]
      rfl
  have honWrite : step d (firstCall m fd outBuffer (serving fd' b₂ b₃ .onWrite)
      { sent := [m], arrived := [m.delivered] } {}) (.server .onWrite) =
        some (firstCall m fd outBuffer (serving fd' b₂ b₃ .writing)
          { sent := [m], arrived := [m.delivered] } {}, none) :=
    step_server rfl rfl
  have hwrite : step d (firstCall m fd outBuffer (serving fd' b₂ b₃ .writing)
      { sent := [m], arrived := [m.delivered] } {})
      (.server (.write { result := .accepted b₃.readable.length })) =
        some (answered d m fd outBuffer (serving fd' b₂ b₃ .test), none) := by
    refine step_server (o := .write b₃.readable.length false) ?_ ?_
    · have hpass' : (serving fd' b₂ b₃ .writing).connection.writePass
          { result := .accepted b₃.readable.length } =
            .leave (serving fd' b₂ b₃ .writing).connection := writePass_whole hsound
      have hwriting : (serving fd' b₂ b₃ .writing).place = .writing ∧
          (serving fd' b₂ b₃ .writing).connection.outBuffer.readAble ≠ 0 := ⟨rfl, hdata₃⟩
      simp only [firstCall, ConnectionLoop.step, hpass']
      rw [if_pos hwriting]
      rfl
    · simp only [serverFlows, firstCall]
      have hout : (serving fd' b₂ b₃ .writing).connection.outBuffer.readable = b₃.readable := rfl
      rw [hout, write_whole, hreadable₃]
      rfl
  refine ⟨_, _, _, .cons htest trivial (.cons honRead trivial (.cons hread ?_ (.cons hexcute ?_
    (.cons honWrite trivial (.cons hwrite ?_ (.nil d _))))))⟩
  · change ((m.withMsgId.packet.length : ℕ) : ℤ) < (TcpBuffer.new 128).writeAble
    omega
  · exact settles_of_packet (f := { sent := [m] }) rfl hreadable₁ hquiet
  · exact Or.inl (taken_whole _)

theorem exists_cleanRun_received (d : RpcDispatcher Method Message) (fd : ℤ) (hm : m.Encodable)
    (hfits' : (reply d m.delivered).withMsgId.packetLength < 128) (outBuffer : TcpBuffer)
    (server : ConnectionLoop) :
    ∃ s ops outs, CleanRun d (answered d m fd outBuffer server) ops s outs ∧ s.requests = [m] ∧
      some ((reply d m.delivered).msgId, (reply d m.delivered).delivered) ∈ outs := by
  have hencodable : (reply d m.delivered).Encodable := encodable_reply (encodable_delivered hm)
  have hid : (reply d m.delivered).msgId ≠ [] :=
    (RpcDispatcher.dispatch_spec d m.delivered).1.msgId_eq.trans_ne (withMsgId_msgId_ne m)
  unfold answered
  generalize reply d m.delivered = q at *
  have hproper : (TcpBuffer.new 128).Proper := TcpBuffer.proper_new (by decide)
  have hsize : (TcpBuffer.new 128).buffer.length = 128 := List.length_replicate
  have hroom : (TcpBuffer.new 128).writeAble = 128 := by decide +kernel
  have hlen := q.withMsgId.length_packet
  obtain ⟨b₁, hpass, hproper₁, hreadable₁⟩ := exists_readPass
    (c := { TcpConnection.new fd 128 .byClient with state := .connected, outBuffer := outBuffer })
    q.withMsgId.packet hproper (hsize.trans_lt (by decide)) (List.cons_ne_nil _ _)
    (hroom.symm ▸ (by omega))
  obtain ⟨b₂, hdecode, -, hquiet⟩ := exists_decode_packet hencodable hproper₁ hreadable₁
  have hread : step d (firstCall m fd outBuffer server { sent := [m], arrived := [m.delivered] }
      { sent := [q], wire := q.withMsgId.packet })
      (.client (.read { result := .bytes q.withMsgId.packet })) =
        some ({ firstCall m fd outBuffer server { sent := [m], arrived := [m.delivered] }
            { sent := [q] } with
          client := { TcpConnection.new fd 128 .byClient with
            state := .connected, inBuffer := b₁, outBuffer := outBuffer } }, none) := by
    refine step_client ?_ ?_
    · simp only [firstCall, clientStep, hpass]
      rfl
    · simp only [clientFlows, firstCall]
      rw [read_whole { sent := [q], wire := q.withMsgId.packet }]
      rfl
  have hexcute : step d { firstCall m fd outBuffer server { sent := [m], arrived := [m.delivered] }
      { sent := [q] } with
        client := { TcpConnection.new fd 128 .byClient with
          state := .connected, inBuffer := b₁, outBuffer := outBuffer } } (.client (.excute 2)) =
        some ({ firstCall m fd outBuffer server { sent := [m], arrived := [m.delivered] }
            { sent := [q], arrived := [q.delivered] } with
          client := { TcpConnection.new fd 128 .byClient with
            state := .connected, inBuffer := b₂, outBuffer := outBuffer
            replyMsg := insertReply (fun _ => none) q.delivered } }, none) := by
    refine step_client ?_ ?_
    · rw [clientStep, excute_client_eq rfl]
      simp only [hdecode]
      rfl
    · simp only [clientFlows, firstCall, Flow.decode, hdecode]
      rfl
  have htaken : q.delivered.msgId = q.msgId := by
    rw [delivered_eq hid]
    rfl
  have hstored : insertReply (fun _ => none) q.delivered q.msgId = some q.delivered :=
    htaken ▸ insertReply_self rfl
  have htake : step d { firstCall m fd outBuffer server { sent := [m], arrived := [m.delivered] }
      { sent := [q], arrived := [q.delivered] } with
        client := { TcpConnection.new fd 128 .byClient with
          state := .connected, inBuffer := b₂, outBuffer := outBuffer
          replyMsg := insertReply (fun _ => none) q.delivered } }
      (.client (.getResPackageData q.msgId)) =
        some ({ firstCall m fd outBuffer server { sent := [m], arrived := [m.delivered] }
            { sent := [q], arrived := [q.delivered] } with
          client := { TcpConnection.new fd 128 .byClient with
            state := .connected, inBuffer := b₂, outBuffer := outBuffer
            replyMsg := Function.update (insertReply (fun _ => none) q.delivered) q.msgId none } },
          some (q.msgId, q.delivered)) := by
    refine step_client ?_ rfl
    simp only [clientStep, TcpConnection.getResPackageData, hstored, Option.map_some]
  refine ⟨_, _, _, .cons hread ?_ (.cons hexcute ?_ (.cons htake trivial (.nil d _))), rfl,
    List.mem_cons_of_mem _ (List.mem_cons_of_mem _ (List.mem_singleton_self _))⟩
  · change ((q.withMsgId.packet.length : ℕ) : ℤ) < (TcpBuffer.new 128).writeAble
    omega
  · exact settles_of_packet (f := { sent := [q] }) rfl hreadable₁ hquiet

end FirstCall

/-- The first call of a session can be answered iff the packets of its request and of its reply
have at most 127 bytes each. The request has a message id that is not empty, and is `Encodable`:
with a NUL byte in its message id, say, another id would come back. -/
theorem answered_iff (d : RpcDispatcher Method Message) (fd fd' : ℤ) {m : TinyPBProtocol}
    (hm : m.Encodable) (hid : m.msgId ≠ []) :
    (∃ ops s outs, (machine d).Meets Clean (new fd fd') ops ∧
        (machine d).run (new fd fd') ops = some (s, outs) ∧ s.requests = [m] ∧
        some (m.msgId, (reply d m).delivered) ∈ outs) ↔
      m.packetLength ≤ 127 ∧ (reply d m).packetLength ≤ 127 := by
  have hwith : m.withMsgId = m := by rw [withMsgId, if_neg hid]
  have hreply : reply d m.delivered = reply d m := by rw [reply_delivered, hwith]
  have hreplyId : (reply d m).msgId = m.msgId := (RpcDispatcher.dispatch_spec d m).1.msgId_eq
  have hreplyWith : (reply d m).withMsgId = reply d m := by
    rw [withMsgId, if_neg (hreplyId.trans_ne hid)]
  constructor
  · rintro ⟨ops, s, outs, hclean, hrun, hrequests, hmem⟩
    obtain ⟨request, hrequest, -, -, hfits, hfits'⟩ :=
      answers_of_run d fd fd' hclean hrun _ hmem _ rfl
    rw [hrequests] at hrequest
    cases List.mem_singleton.1 hrequest
    rw [hwith] at hfits hfits'
    exact ⟨Nat.le_of_lt_succ hfits, Nat.le_of_lt_succ hfits'⟩
  · rintro ⟨hfits, hfits'⟩
    have hlt : m.withMsgId.packetLength < 128 := hwith.symm ▸ Nat.lt_succ_of_le hfits
    have hlt' : (reply d m.delivered).withMsgId.packetLength < 128 := by
      rw [hreply, hreplyWith]
      exact Nat.lt_succ_of_le hfits'
    obtain ⟨outBuffer, ops₁, outs₁, hrequested⟩ := exists_cleanRun_requested d fd fd' hm hlt
    obtain ⟨server, ops₂, outs₂, hanswered⟩ :=
      exists_cleanRun_answered d fd fd' hm hlt hlt' outBuffer
    obtain ⟨s, ops₃, outs₃, hreceived, hrequests, hmem⟩ :=
      exists_cleanRun_received d fd hm hlt' outBuffer server
    obtain ⟨hclean, hrun⟩ := hrequested.append (hanswered.append hreceived)
    rw [hreply, hreplyId] at hmem
    exact ⟨_, s, _, hclean, hrun, hrequests,
      List.mem_append_right _ (List.mem_append_right _ hmem)⟩

theorem answered_iff_order :
    (∃ ops s outs, (machine orderDispatcher).Meets Clean (new 5 7) ops ∧
        (machine orderDispatcher).run (new 5 7) ops = some (s, outs) ∧ s.requests = [order] ∧
        some (order.msgId, (reply orderDispatcher order).delivered) ∈ outs) ↔
      order.packetLength ≤ 127 ∧ (reply orderDispatcher order).packetLength ≤ 127 :=
  answered_iff orderDispatcher 5 7 (by decide) (by decide)

end Session

end Rocket
