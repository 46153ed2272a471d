import Rocket.Foundation.KeyedStore
import Rocket.Net.Coder.Stream
import Rocket.Net.Tcp.ClientCall
import Rocket.Net.Tcp.Served

/-!
# A client and a server

The two ends of a connection and the bytes between them. The server runs the loops of its
connection; the client encodes requests, writes, reads, executes and takes replies out, in
any order, which is more than its calls do. A `Flow` is one direction: the bytes that have
been written and not yet read, together with the messages that have been sent and those that
have been decoded, which no part of the code sees.

A run is clean when every message that the client encodes fits the arrays of the decoder and
has no NUL byte in its texts (`Encodable`), every `write` takes the whole of the out-buffer, no
`read` fills the in-buffer up, and what is left of the in-buffer behind the packets that are
complete does not look like a packet. Then the requests and the replies arrive as they have been
sent, and a reply that a caller gets is what the dispatcher has answered to a request with the
message id that the caller has asked for (`faithful_of_run`).
-/

namespace Rocket

open Foundation TinyPBProtocol TinyPBCoder

/-- One direction of a connection: the messages whose packets have been written, those that
have been decoded, and the bytes that are still to be read. -/
structure Flow where
  sent : List TinyPBProtocol := []
  arrived : List TinyPBProtocol := []
  wire : Bytes := []

namespace Flow

def due (f : Flow) : List TinyPBProtocol := f.sent.drop f.arrived.length

/-- A `write` from an out-buffer that holds the packets of `messages` as its readable bytes. -/
def write (f : Flow) (messages : List TinyPBProtocol) (live : Bytes) (r : Hooked WriteResult) :
    Flow :=
  { f with
    sent := if TcpConnection.taken live r = live then f.sent ++ messages else f.sent
    wire := f.wire ++ TcpConnection.taken live r }

/-- A `read` gets bytes from the front of the wire. -/
def read (f : Flow) (r : Hooked ReadResult) : Option Flow :=
  if TcpConnection.received r <+: f.wire then
    some { f with wire := f.wire.drop (TcpConnection.received r).length }
  else none

/-- `decode` delivers messages out of the in-buffer `b`. -/
def decode (f : Flow) (b : TcpBuffer) (fuel : ℕ) : Flow :=
  { f with
    arrived := f.arrived ++ ((TinyPBCoder.decode fuel [] b).map Prod.snd).getD [] }

/-- The messages that have arrived are those that have been sent first, and the in-buffer `b`
and the wire hold the packets of the others. Those that have arrived have fitted into the
in-buffer. -/
structure Carries (f : Flow) (b : TcpBuffer) : Prop where
  encodable : ∀ m ∈ f.sent, m.Encodable
  arrived_eq : f.arrived = (f.sent.take f.arrived.length).map delivered
  bytes_eq : b.readable ++ f.wire = stream f.due
  fits : ∀ m ∈ f.sent.take f.arrived.length, m.withMsgId.packetLength < b.buffer.length

/-- A `write` takes all that it is given, or nothing. -/
def Whole (live : Bytes) (r : Hooked WriteResult) : Prop :=
  TcpConnection.taken live r = live ∨ TcpConnection.taken live r = []

instance (live : Bytes) (r : Hooked WriteResult) : Decidable (Whole live r) :=
  inferInstanceAs (Decidable (_ ∨ _))

/-- Behind the packets of the messages to come that are complete in the in-buffer, the search
finds nothing. -/
def Settles (f : Flow) (b : TcpBuffer) : Prop :=
  ∀ b' ∈ drain (complete f.due b.readable.length) b, FindsNone b'

instance (f : Flow) (b : TcpBuffer) : Decidable (Settles f b) :=
  inferInstanceAs (Decidable (∀ b' ∈ drain _ b, FindsNone b'))

section Carries

variable {f f' : Flow} {b b' : TcpBuffer}

theorem Carries.length_arrived_le (h : Carries f b) : f.arrived.length ≤ f.sent.length := by
  have hlen := congrArg List.length h.arrived_eq
  rw [List.length_map, List.length_take] at hlen
  omega

theorem Carries.arrived_prefix (h : Carries f b) : f.arrived <+: f.sent.map delivered := by
  rw [h.arrived_eq, List.map_take]
  exact List.take_prefix _ _

theorem Carries.exists_of_arrived (h : Carries f b) {m : TinyPBProtocol} (hm : m ∈ f.arrived) :
    ∃ m' ∈ f.sent, m = m'.delivered ∧ m'.withMsgId.packetLength < b.buffer.length := by
  rw [h.arrived_eq] at hm
  obtain ⟨m', hm', rfl⟩ := List.mem_map.1 hm
  exact ⟨m', List.mem_of_mem_take hm', rfl, h.fits m' hm'⟩

theorem carries_nil (hb : b.readable = []) : Carries {} b :=
  ⟨List.forall_mem_nil _, rfl, by rw [hb]; rfl, List.forall_mem_nil _⟩

theorem Carries.congr (h : Carries f b) (hb : b' = b) : Carries f b' := hb ▸ h

/-- A whole `write` sends the messages of the out-buffer, or none. -/
theorem Carries.write (h : Carries f b) {messages : List TinyPBProtocol}
    (henc : ∀ m ∈ messages, m.Encodable) {live : Bytes} (hlive : live = stream messages)
    {r : Hooked WriteResult} (hwhole : Whole live r) :
    Carries (f.write messages live r) b := by
  by_cases htaken : TcpConnection.taken live r = live
  · have hle := h.length_arrived_le
    refine ⟨?_, ?_, ?_, ?_⟩ <;> simp only [Flow.write, Flow.due, if_pos htaken]
    · exact List.forall_mem_append.2 ⟨h.encodable, henc⟩
    · rw [List.take_append_of_le_length hle]
      exact h.arrived_eq
    · rw [List.drop_append_of_le_length hle, stream_append, htaken, ← hlive, ← List.append_assoc,
        h.bytes_eq, Flow.due]
    · rw [List.take_append_of_le_length hle]
      exact h.fits
  · have hnone := hwhole.resolve_left htaken
    refine ⟨?_, ?_, ?_, ?_⟩ <;> simp only [Flow.write, Flow.due, if_neg htaken]
    · exact h.encodable
    · exact h.arrived_eq
    · rw [hnone, List.append_nil]
      exact h.bytes_eq
    · exact h.fits

theorem read_frame {r : Hooked ReadResult} (hread : f.read r = some f') :
    f'.sent = f.sent ∧ f'.arrived = f.arrived := by
  obtain ⟨-, heq⟩ := Option.ite_none_right_eq_some.1 hread
  cases heq
  exact ⟨rfl, rfl⟩

/-- A `read` moves bytes from the wire to the in-buffer. -/
theorem Carries.read (h : Carries f b) {r : Hooked ReadResult} (hread : f.read r = some f')
    (hb : b'.readable = b.readable ++ TcpConnection.received r)
    (hlen : b'.buffer.length = b.buffer.length) : Carries f' b' := by
  obtain ⟨⟨rest, hrest⟩, heq⟩ := Option.ite_none_right_eq_some.1 hread
  cases heq
  refine ⟨h.encodable, h.arrived_eq, ?_, hlen ▸ h.fits⟩
  have hdrop : f.wire.drop (TcpConnection.received r).length = rest := by
    rw [← hrest, List.drop_left]
  rw [hdrop, hb, List.append_assoc, hrest]
  exact h.bytes_eq

/-- A packet in a buffer with a spare cell is smaller than the buffer. -/
theorem packetLength_lt_of_readable (hproper : b.Proper) {messages : List TinyPBProtocol}
    {rest : Bytes} (hbytes : b.readable = stream messages ++ rest) {m : TinyPBProtocol}
    (hm : m ∈ messages) : m.withMsgId.packetLength < b.buffer.length := by
  obtain ⟨stale, spare, hlay⟩ := hproper.exists_layout
  have hlen := hlay.length_eq
  have hwrite := hlay.writeIndex_eq
  have hlt := hproper.write_lt_length
  have hmem := List.mem_map_of_mem (f := fun m : TinyPBProtocol => m.withMsgId.packet) hm
  have hpacket : m.withMsgId.packet.length ≤ (stream messages).length :=
    (List.sublist_flatten_of_mem hmem).length_le
  have hreadable := congrArg List.length hbytes
  rw [List.length_append] at hreadable
  rw [length_packet] at hpacket
  omega

/-- `decode` delivers the messages whose packets are complete. -/
theorem Carries.decode (h : Carries f b) (hproper : b.Proper) (hsettles : Settles f b) {fuel : ℕ}
    {result : List TinyPBProtocol} (hdecode : TinyPBCoder.decode fuel [] b = some (b', result)) :
    Carries (f.decode b fuel) b' := by
  obtain ⟨left, rest, hdue, hbytes, -⟩ :=
    exists_of_prefix (h.bytes_eq ▸ List.prefix_append b.readable f.wire)
  generalize hdone : complete f.due b.readable.length = done at hdue hbytes
  have henc : ∀ m ∈ done, m.withMsgId.Encodable := fun m hm =>
    (h.encodable m (List.mem_of_mem_drop (hdue ▸ List.mem_append_left left hm))).withMsgId
  obtain ⟨stale, spare, hlay⟩ := hproper.exists_layout
  rw [hbytes] at hlay
  obtain ⟨b₁, _, _, hdrain, hpasses, hlay₁, hproper₁⟩ := decode_drain henc hlay hproper
  -- `decode` stops behind the complete packets, whatever number of passes it may take
  have hstop : TinyPBCoder.decode (done.length + 1) [] b = some (b₁, done.map delivered) := by
    rw [hpasses, decode_of_findsNone hproper₁ (hsettles b₁ (hdone ▸ hdrain)), List.nil_append]
  obtain ⟨rfl, rfl⟩ : b₁ = b' ∧ done.map delivered = result := by
    have hmax := Loop.run_mono (le_max_left (done.length + 1) fuel) hstop
    rw [Loop.run_mono (le_max_right (done.length + 1) fuel) hdecode] at hmax
    cases hmax
    exact ⟨rfl, rfl⟩
  have harrived : (f.decode b fuel).arrived = f.arrived ++ done.map delivered := by
    rw [Flow.decode, hdecode]
    rfl
  have hsent : f.sent.drop f.arrived.length = done ++ left := hdue
  have htake : f.sent.take (f.arrived.length + done.length) =
      f.sent.take f.arrived.length ++ done := by
    rw [List.take_add, hsent, List.take_left]
  have htake' : (f.decode b fuel).sent.take (f.decode b fuel).arrived.length =
      f.sent.take f.arrived.length ++ done := by
    rw [harrived, List.length_append, List.length_map]
    exact htake
  have hleft : (f.decode b fuel).due = left := by
    rw [Flow.due, harrived, List.length_append, List.length_map, ← List.drop_drop]
    change (f.sent.drop _).drop _ = left
    rw [hsent, List.drop_left]
  refine ⟨h.encodable, ?_, ?_, ?_⟩
  · rw [htake', List.map_append, ← h.arrived_eq, harrived]
  · have hall := h.bytes_eq
    rw [hbytes, hdue, stream_append, List.append_assoc, List.append_right_inj] at hall
    rw [hleft, hlay₁.readable_eq]
    exact hall
  · rw [htake', List.forall_mem_append, (Proper.of_decode hproper hdecode).2]
    exact ⟨h.fits, fun m hm => packetLength_lt_of_readable hproper hbytes hm⟩

end Carries

end Flow

inductive ClientOp where
  | encode (m : TinyPBProtocol)
  | connect (r : Hooked ConnectResult)
  | write (r : Hooked WriteResult)
  | read (r : Hooked ReadResult)
  | excute (fuel : ℕ)
  | getResPackageData (msgId : Bytes)
  | setOverTimeFlag (value : Bool)

def ClientOp.encoded : ClientOp → List TinyPBProtocol
  | .encode m => [m]
  | _ => []

namespace TcpConnection

variable {Method Message : Type}

/-- A step of a client. `read` and `write` are a pass of their loops, and `connect` is one
attempt to connect. A reply that is taken out comes with the message id that it has been asked
for. -/
def clientStep (d : RpcDispatcher Method Message) (c : TcpConnection) :
    ClientOp → Option (TcpConnection × Option (Bytes × TinyPBProtocol))
  | .encode m =>
      (TinyPBCoder.encode [m] c.outBuffer).map fun p => ({ c with outBuffer := p.2 }, none)
  | .connect r =>
      let c := c.fire r.overTime
      some (if r.result = .success then c.setState .connected else c, none)
  | .write r =>
      match c.writePass r with
      | .again c | .leave c => some (c, none)
      | .undefined => none
  | .read r =>
      match c.readPass r with
      | .again c => some (c, none)
      | .leave (c, isClose) => some (if isClose then c.clear else c, none)
      | .undefined => none
  | .excute fuel => (c.excute d fuel).map fun p => (p.1, none)
  | .getResPackageData msgId =>
      (c.getResPackageData msgId).map fun p => (p.2, some (msgId, p.1))
  | .setOverTimeFlag value => some (c.setOverTimeFlag value, none)

def clientMachine (d : RpcDispatcher Method Message) :
    Machine TcpConnection ClientOp (Option (Bytes × TinyPBProtocol)) := ⟨clientStep d⟩

end TcpConnection

/-- A client and a server that are connected. `requests` are the messages that the client has
encoded so far. -/
structure Session where
  client : TcpConnection
  server : ConnectionLoop
  requests : List TinyPBProtocol := []
  toServer : Flow := {}
  toClient : Flow := {}

/-- One of the two takes a step. -/
inductive SessionOp where
  | client (op : ClientOp)
  | server (op : ConnectionOp)

namespace Session

open TcpConnection ConnectionLoop

variable {Method Message : Type}

/-- A connection of `TcpClient`, and the one that `IOThread::addClient` makes for it. -/
def new (fd fd' : ℤ) : Session where
  client := .new fd 128 .byClient
  server := { connection := .addClient fd' }

def clientFlows (s : Session) : ClientOp → Option (Flow × Flow)
  | .write r => some (s.toServer.write s.requests s.client.outBuffer.readable r, s.toClient)
  | .read r => (s.toClient.read r).map fun f => (s.toServer, f)
  | .excute fuel => some (s.toServer, s.toClient.decode s.client.inBuffer fuel)
  | _ => some (s.toServer, s.toClient)

def serverFlows (d : RpcDispatcher Method Message) (s : Session) :
    ConnectionOp → Option (Flow × Flow)
  | .write r =>
      some (s.toServer, s.toClient.write (s.toServer.arrived.map (reply d))
        s.server.connection.outBuffer.readable r)
  | .read r => (s.toServer.read r).map fun f => (f, s.toClient)
  | .excute fuel => some (s.toServer.decode s.server.connection.inBuffer fuel, s.toClient)
  | _ => some (s.toServer, s.toClient)

/-- The next step. The dispatcher is that of the server; `excute` of a client does not use
one. -/
def step (d : RpcDispatcher Method Message) (s : Session) :
    SessionOp → Option (Session × Option (Bytes × TinyPBProtocol))
  | .client op => do
      let (client, out) ← s.client.clientStep d op
      let (toServer, toClient) ← s.clientFlows op
      some ({ s with
        client := client
        requests := s.requests ++ op.encoded
        toServer := toServer
        toClient := toClient }, out)
  | .server op => do
      let (server, _) ← ConnectionLoop.step d s.server op
      let (toServer, toClient) ← s.serverFlows d op
      some ({ s with server := server, toServer := toServer, toClient := toClient }, none)

def machine (d : RpcDispatcher Method Message) :
    Machine Session SessionOp (Option (Bytes × TinyPBProtocol)) := ⟨step d⟩

/-- The step does not disturb the streams. -/
def Clean (s : Session) : SessionOp → Prop
  | .client (.encode m) => m.Encodable
  | .client (.write r) => Flow.Whole s.client.outBuffer.readable r
  | .client (.read r) => ((received r).length : ℤ) < s.client.inBuffer.writeAble
  | .client (.excute _) => s.toClient.Settles s.client.inBuffer
  | .server (.write r) => Flow.Whole s.server.connection.outBuffer.readable r
  | .server (.read r) => ((received r).length : ℤ) < s.server.connection.inBuffer.writeAble
  | .server (.excute _) => s.toServer.Settles s.server.connection.inBuffer
  | _ => True

instance (s : Session) : (op : SessionOp) → Decidable (s.Clean op)
  | .client (.encode m) => inferInstanceAs (Decidable m.Encodable)
  | .client (.write _) | .server (.write _) => inferInstanceAs (Decidable (Flow.Whole _ _))
  | .client (.read _) | .server (.read _) => inferInstanceAs (Decidable (_ < _))
  | .client (.excute _) | .server (.excute _) => inferInstanceAs (Decidable (Flow.Settles _ _))
  | .client (.connect _) | .client (.getResPackageData _) | .client (.setOverTimeFlag _)
  | .server .test | .server .onRead | .server .onWrite | .server .noData | .server .shutdown =>
      inferInstanceAs (Decidable True)

/-- The client has asked for the answer to one of its requests, by the message id of the
request, and has got it. Request and reply have fitted into the in-buffers. -/
def Answers (d : RpcDispatcher Method Message) (requests : List TinyPBProtocol)
    (p : Bytes × TinyPBProtocol) : Prop :=
  ∃ request ∈ requests, request.withMsgId.msgId = p.1 ∧
    p.2 = (reply d request.withMsgId).delivered ∧
    request.withMsgId.packetLength < 128 ∧ (reply d request.withMsgId).packetLength < 128

/-- What holds at every point of a clean run. -/
structure Consistent (d : RpcDispatcher Method Message) (s : Session) : Prop where
  isClient : s.client.IsClient
  length_eq : s.client.inBuffer.buffer.length = 128
  encodable : ∀ m ∈ s.requests, m.Encodable
  outBuffer_eq : s.client.outBuffer.readable = stream s.requests
  serves : ∃ ts, Serves d 128 s.server ts ∧ ts.flatMap Traffic.requests = s.toServer.arrived
  toServer : s.toServer.Carries s.server.connection.inBuffer
  sent_subset : s.toServer.sent ⊆ s.requests
  toClient : s.toClient.Carries s.client.inBuffer
  replied : s.toClient.sent ⊆ s.toServer.arrived.map (reply d)
  stored : StoresWithin TinyPBProtocol.msgId s.client.replyMsg {m | m ∈ s.toClient.arrived}

section Reply

variable {d : RpcDispatcher Method Message} {m : TinyPBProtocol}

def errInfos : List Bytes :=
  [[], ascii "parse service name error", ascii "service not found", ascii "method not found",
    ascii "deserilize error", ascii "serilize error"]

theorem errInfo_reply_mem (d : RpcDispatcher Method Message) (m : TinyPBProtocol) :
    (reply d m).errInfo ∈ errInfos := by
  unfold reply RpcDispatcher.dispatch
  cases RpcDispatcher.parseServiceFullName m.methodName with
  | none => exact List.mem_cons_of_mem _ List.mem_cons_self
  | some names =>
      obtain ⟨serviceName, methodName⟩ := names
      cases hservice : d.serviceMap serviceName with
      | none => simp [hservice, errInfos, RpcDispatcher.setTinyPBError]
      | some service =>
          cases hmethod : service.findMethodByName methodName with
          | none => simp [hservice, hmethod, errInfos, RpcDispatcher.setTinyPBError]
          | some method =>
              cases hparse : service.parseFromString method m.pbData with
              | none => simp [hservice, hmethod, hparse, errInfos, RpcDispatcher.setTinyPBError]
              | some reqMsg =>
                  simp only [hservice, hmethod, hparse]
                  split_ifs <;> simp [errInfos, RpcDispatcher.setTinyPBError]

/-- A response can be decoded if its request can: its message id and method name are those of
the request. -/
theorem encodable_reply (h : m.Encodable) : (reply d m).Encodable := by
  have hinfos : ∀ info ∈ errInfos, info.length ≤ 511 ∧ 0 ∉ info := by decide
  have hreplies := (RpcDispatcher.dispatch_spec d m).1
  obtain ⟨hle, hnul⟩ := hinfos _ (errInfo_reply_mem d m)
  exact ⟨hreplies.msgId_eq ▸ h.msgId_le, hreplies.methodName_eq ▸ h.methodName_le, hle,
    hreplies.msgId_eq ▸ h.msgId_nul, hreplies.methodName_eq ▸ h.methodName_nul, hnul⟩

theorem withMsgId_msgId_ne (m : TinyPBProtocol) : m.withMsgId.msgId ≠ [] := by
  unfold withMsgId
  split_ifs with hid
  · exact List.cons_ne_nil _ _
  · exact hid

theorem encodable_delivered (h : m.Encodable) : m.delivered.Encodable :=
  have henc := h.withMsgId
  ⟨henc.msgId_le, henc.methodName_le, henc.errInfo_le, henc.msgId_nul, henc.methodName_nul,
    henc.errInfo_nul⟩

/-- The dispatcher reads of a request what arrives of it. -/
theorem reply_delivered (d : RpcDispatcher Method Message) (m : TinyPBProtocol) :
    reply d m.delivered = reply d m.withMsgId :=
  congrArg Prod.fst (RpcDispatcher.dispatch_congr rfl rfl rfl {})

end Reply

section Step

variable {d : RpcDispatcher Method Message} {s s' : Session}

theorem consistent_new (d : RpcDispatcher Method Message) (fd fd' : ℤ) :
    Consistent d (new fd fd') where
  isClient := ⟨rfl, TcpBuffer.proper_new (by decide),
    (TcpBuffer.sound_new (by decide)).length_lt_int, TcpBuffer.sound_new (by decide)⟩
  length_eq := List.length_replicate
  encodable := List.forall_mem_nil _
  outBuffer_eq := rfl
  serves := ⟨[], serves_addClient d fd', rfl⟩
  toServer := Flow.carries_nil rfl
  sent_subset := List.nil_subset _
  toClient := Flow.carries_nil rfl
  replied := List.nil_subset _
  stored := StoresWithin.empty _ _

theorem Consistent.answers (h : Consistent d s) {m : TinyPBProtocol}
    (hm : m ∈ s.toClient.arrived) : Answers d s.requests (m.msgId, m) := by
  obtain ⟨response, hresponse, rfl, hfits⟩ := h.toClient.exists_of_arrived hm
  obtain ⟨request', hrequest', rfl⟩ := List.mem_map.1 (h.replied hresponse)
  obtain ⟨request, hrequest, rfl, hfits'⟩ := h.toServer.exists_of_arrived hrequest'
  obtain ⟨ts, hserves, -⟩ := h.serves
  rw [reply_delivered] at hfits ⊢
  have hid : (reply d request.withMsgId).msgId = request.withMsgId.msgId :=
    (RpcDispatcher.dispatch_spec d request.withMsgId).1.msgId_eq
  have hne := hid.trans_ne (withMsgId_msgId_ne request)
  have hdelivered : (reply d request.withMsgId).delivered.msgId =
      (reply d request.withMsgId).msgId := by rw [delivered_eq hne]; rfl
  rw [withMsgId, if_neg hne, h.length_eq] at hfits
  rw [hserves.length_eq] at hfits'
  exact ⟨request, h.sent_subset hrequest, (hdelivered.trans hid).symm, rfl, hfits', hfits⟩

theorem Consistent.encodable_replies (h : Consistent d s) :
    ∀ m ∈ s.toServer.arrived.map (reply d), m.Encodable := by
  refine List.forall_mem_map.2 fun request' hrequest' => encodable_reply ?_
  obtain ⟨request, hrequest, rfl, -⟩ := h.toServer.exists_of_arrived hrequest'
  exact encodable_delivered (h.toServer.encodable request hrequest)

theorem Consistent.flags (h : Consistent d s) (state : TcpState) (stop overTime : Bool) :
    Consistent d { s with client := { s.client with
      state := state, stop := stop, isOverTime := overTime } } :=
  { h with isClient := (h.isClient.keeps_flags state stop overTime).isClient }

theorem Consistent.encode (h : Consistent d s) {m : TinyPBProtocol} (hm : m.Encodable)
    {p : List TinyPBProtocol × TcpBuffer}
    (hencode : TinyPBCoder.encode [m] s.client.outBuffer = some p) :
    Consistent d { s with
      client := { s.client with outBuffer := p.2 }, requests := s.requests ++ [m] } := by
  obtain ⟨hsound, hreadable, -⟩ := encode_spec h.isClient.outBuffer_sound hencode
  exact { h with
    isClient := ⟨h.isClient.connectionType_eq, h.isClient.inBuffer_proper,
      h.isClient.inBuffer_lt_int, hsound⟩
    encodable := List.forall_mem_append.2 ⟨h.encodable, List.forall_mem_singleton.2 hm⟩
    outBuffer_eq := by rw [hreadable, h.outBuffer_eq, stream_append]
    sent_subset := List.subset_append_of_subset_left _ h.sent_subset }

theorem Consistent.write (h : Consistent d s) {r : Hooked WriteResult}
    (hwhole : Flow.Whole s.client.outBuffer.readable r) :
    Consistent d { s with
      toServer := s.toServer.write s.requests s.client.outBuffer.readable r } := by
  exact { h with
    toServer := h.toServer.write h.encodable h.outBuffer_eq hwhole
    serves := h.serves
    replied := h.replied
    sent_subset := by
      unfold Flow.write
      split_ifs
      · exact List.append_subset.2 ⟨h.sent_subset, List.Subset.refl _⟩
      · exact h.sent_subset }

theorem Consistent.read (h : Consistent d s) {r : Hooked ReadResult} {f : Flow}
    (hread : s.toClient.read r = some f) {c : TcpConnection} (hkeeps : ReadKeeps s.client c)
    (hreadable : c.inBuffer.readable = s.client.inBuffer.readable ++ received r) :
    Consistent d { s with client := c, toClient := f } := by
  obtain ⟨hsent, harrived⟩ := Flow.read_frame hread
  exact { h with
    isClient := ⟨hkeeps.connectionType_eq.trans h.isClient.connectionType_eq, hkeeps.proper,
      hkeeps.length_eq.trans_lt h.isClient.inBuffer_lt_int,
      hkeeps.outBuffer_eq.symm ▸ h.isClient.outBuffer_sound⟩
    length_eq := hkeeps.length_eq.trans h.length_eq
    outBuffer_eq := by rw [hkeeps.outBuffer_eq, h.outBuffer_eq]
    toClient := h.toClient.read hread hreadable hkeeps.length_eq
    replied := hsent.symm ▸ h.replied
    stored := by
      simp only [hkeeps.replyMsg_eq, harrived]
      exact h.stored }

theorem Consistent.excute (h : Consistent d s) {fuel : ℕ} {c : TcpConnection}
    {calls : List (Invocation Method Message)} (hsettles : s.toClient.Settles s.client.inBuffer)
    (hexcute : s.client.excute d fuel = some (c, calls)) :
    Consistent d { s with
      client := c, toClient := s.toClient.decode s.client.inBuffer fuel } := by
  rw [excute_client_eq h.isClient.connectionType_eq] at hexcute
  obtain ⟨⟨inBuffer, result⟩, hdecode, heq⟩ := Option.map_eq_some_iff.1 hexcute
  cases heq
  obtain ⟨hproper, hlen⟩ := Proper.of_decode h.isClient.inBuffer_proper hdecode
  have harrived : (s.toClient.decode s.client.inBuffer fuel).arrived =
      s.toClient.arrived ++ result := by
    rw [Flow.decode, hdecode]
    rfl
  exact { h with
    isClient := ⟨h.isClient.connectionType_eq, hproper,
      hlen.trans_lt h.isClient.inBuffer_lt_int, h.isClient.outBuffer_sound⟩
    length_eq := hlen.trans h.length_eq
    toClient := h.toClient.decode h.isClient.inBuffer_proper hsettles hdecode
    stored := by
      simp only [harrived]
      exact (h.stored.mono fun m hm => List.mem_append_left result hm).foldl_insertNew
        fun m hm => List.mem_append_right _ hm }

theorem Consistent.getResPackageData (h : Consistent d s) {msgId : Bytes}
    {p : TinyPBProtocol × TcpConnection} (hres : s.client.getResPackageData msgId = some p) :
    Consistent d { s with client := p.2 } ∧ Answers d s.requests (msgId, p.1) := by
  obtain ⟨m, hm, heq⟩ := Option.map_eq_some_iff.1 hres
  cases heq
  obtain ⟨harrived, rfl⟩ := h.stored _ _ hm
  refine ⟨{ h with
    isClient := ⟨h.isClient.connectionType_eq, h.isClient.inBuffer_proper,
      h.isClient.inBuffer_lt_int, h.isClient.outBuffer_sound⟩
    stored := h.stored.take _ }, h.answers harrived⟩

theorem Consistent.server (h : Consistent d s) {op : ConnectionOp} {l : ConnectionLoop}
    {o : ConnectionOutput} (hstep : ConnectionLoop.step d s.server op = some (l, o))
    {toServer toClient : Flow} (hcarries : toServer.Carries l.connection.inBuffer)
    (hsent : toServer.sent = s.toServer.sent)
    (harrived : toServer.arrived = s.toServer.arrived ++ (traffic s.server op).requests)
    (hcarries' : toClient.Carries s.client.inBuffer)
    (hreplied : toClient.sent ⊆ toServer.arrived.map (reply d))
    (harrived' : toClient.arrived = s.toClient.arrived) :
    Consistent d { s with server := l, toServer := toServer, toClient := toClient } := by
  obtain ⟨ts, hserves, hts⟩ := h.serves
  exact { h with
    serves := ⟨_, hserves.step (by decide) hstep, by
      rw [List.flatMap_append, List.flatMap_singleton, hts, harrived]⟩
    toServer := hcarries
    sent_subset := hsent.symm ▸ h.sent_subset
    toClient := hcarries'
    replied := hreplied
    stored := by
      simp only [harrived']
      exact h.stored }

theorem Consistent.clientRead (h : Consistent d s) {r : Hooked ReadResult}
    (hshort : ((received r).length : ℤ) < s.client.inBuffer.writeAble) {c : TcpConnection}
    {out : Option (Bytes × TinyPBProtocol)}
    (hstep : s.client.clientStep d (.read r) = some (c, out)) :
    ReadKeeps s.client c ∧ c.inBuffer.readable = s.client.inBuffer.readable ++ received r ∧
      out = none := by
  have hproper := h.isClient.inBuffer_proper
  have hint := h.isClient.inBuffer_lt_int
  simp only [TcpConnection.clientStep] at hstep
  split at hstep
  · next c' hpass =>
      cases hstep
      exact ⟨readKeeps_of_readPass hproper hint (Or.inl hpass),
        readable_of_readPass hproper hint hshort (Or.inl hpass), rfl⟩
  · next c' isClose hpass =>
      cases hstep
      have hkeeps := (readKeeps_of_readPass hproper hint (Or.inr ⟨isClose, hpass⟩)).close isClose
      have hreadable := readable_of_readPass hproper hint hshort (Or.inr ⟨isClose, hpass⟩)
      exact ⟨hkeeps, (congrArg _ (inBuffer_close c' isClose)).trans hreadable, rfl⟩
  · cases hstep

theorem Consistent.clientStep (h : Consistent d s) {op : ClientOp} (hclean : Clean s (.client op))
    {out : Option (Bytes × TinyPBProtocol)} (hstep : step d s (.client op) = some (s', out)) :
    Consistent d s' ∧ ∀ p ∈ out, Answers d s'.requests p := by
  obtain ⟨⟨c, out'⟩, hclient, hrest⟩ := Option.bind_eq_some_iff.1 hstep
  obtain ⟨⟨toServer, toClient⟩, hflows, heq⟩ := Option.bind_eq_some_iff.1 hrest
  cases heq
  have hrequests : ∀ op : ClientOp, op.encoded = [] →
      ({ s with client := c, toServer := toServer, toClient := toClient } : Session) =
        { s with client := c, requests := s.requests ++ op.encoded,
                 toServer := toServer, toClient := toClient } := by
    intro op hnil
    rw [hnil, List.append_nil]
  cases op with
  | encode m =>
      obtain ⟨p, hencode, heq⟩ := Option.map_eq_some_iff.1 hclient
      cases heq
      cases hflows
      exact ⟨h.encode hclean hencode, nofun⟩
  | connect r =>
      cases hclient
      cases hflows
      rw [← hrequests _ rfl]
      refine ⟨?_, nofun⟩
      split_ifs
      · exact h.flags _ _ _
      · exact h.flags _ _ _
  | write r =>
      cases hflows
      rw [← hrequests _ rfl]
      have hfire : c = fire s.client r.overTime ∧ out = none := by
        simp only [TcpConnection.clientStep] at hclient
        split at hclient
        · next hpass =>
            cases hclient
            exact ⟨eq_fire_of_writePass (Or.inl hpass), rfl⟩
        · next hpass =>
            cases hclient
            exact ⟨eq_fire_of_writePass (Or.inr hpass), rfl⟩
        · cases hclient
      obtain ⟨rfl, rfl⟩ := hfire
      exact ⟨(h.write hclean).flags _ _ _, nofun⟩
  | read r =>
      obtain ⟨f, hread, heq⟩ := Option.map_eq_some_iff.1 hflows
      cases heq
      rw [← hrequests _ rfl]
      obtain ⟨hkeeps, hreadable, rfl⟩ := h.clientRead hclean hclient
      exact ⟨h.read hread hkeeps hreadable, nofun⟩
  | excute fuel =>
      obtain ⟨⟨c', calls⟩, hexcute, heq⟩ := Option.map_eq_some_iff.1 hclient
      cases heq
      cases hflows
      rw [← hrequests _ rfl]
      exact ⟨h.excute hclean hexcute, nofun⟩
  | getResPackageData msgId =>
      obtain ⟨p, hres, heq⟩ := Option.map_eq_some_iff.1 hclient
      cases heq
      cases hflows
      rw [← hrequests _ rfl]
      obtain ⟨hconsistent, hanswers⟩ := h.getResPackageData hres
      refine ⟨hconsistent, fun p' hp' => ?_⟩
      cases hp'
      exact hanswers
  | setOverTimeFlag value =>
      cases hclient
      cases hflows
      rw [← hrequests _ rfl]
      exact ⟨h.flags _ _ _, nofun⟩

theorem Consistent.serverStep (h : Consistent d s) {op : ConnectionOp}
    (hclean : Clean s (.server op)) {out : Option (Bytes × TinyPBProtocol)}
    (hstep : step d s (.server op) = some (s', out)) : Consistent d s' ∧ out = none := by
  obtain ⟨⟨l, o⟩, hserver, hrest⟩ := Option.bind_eq_some_iff.1 hstep
  obtain ⟨⟨toServer, toClient⟩, hflows, heq⟩ := Option.bind_eq_some_iff.1 hrest
  cases heq
  refine ⟨?_, rfl⟩
  obtain ⟨ts, hserves, hts⟩ := h.serves
  have hproper := hserves.inBuffer_proper
  have hint : s.server.connection.inBuffer.buffer.length < 2 ^ 31 := by
    rw [hserves.length_eq]
    decide
  have hquiet : s.toServer.arrived = s.toServer.arrived ++ [] := (List.append_nil _).symm
  have hread {r : Hooked ReadResult} (hop : op = .read r)
      (hkeeps : ReadKeeps s.server.connection l.connection)
      (hreadable : l.connection.inBuffer.readable =
        s.server.connection.inBuffer.readable ++ received r) :
      Consistent d { s with server := l, toServer := toServer, toClient := toClient } := by
    subst hop
    obtain ⟨f, hread, heq⟩ := Option.map_eq_some_iff.1 hflows
    cases heq
    obtain ⟨hsent, harrived⟩ := Flow.read_frame hread
    exact h.server hserver (h.toServer.read hread hreadable hkeeps.length_eq) hsent
      (harrived.trans hquiet) h.toClient (harrived.symm ▸ h.replied) rfl
  have hwrite {r : Hooked WriteResult} (hop : op = .write r)
      (hin : l.connection.inBuffer = s.server.connection.inBuffer) :
      Consistent d { s with server := l, toServer := toServer, toClient := toClient } := by
    subst hop
    cases hflows
    refine h.server hserver (h.toServer.congr hin) rfl hquiet
      (h.toClient.write h.encodable_replies ?_ hclean) ?_ rfl
    · rw [hserves.readable_eq, replies, hts]
    · unfold Flow.write
      split_ifs
      · exact List.append_subset.2 ⟨h.replied, List.Subset.refl _⟩
      · exact h.replied
  cases stepped_of_step hserver with
  | returned | entered | skipsRead | reads | skipsWrite | writes | noData =>
      cases hflows
      exact h.server hserver h.toServer rfl hquiet h.toClient h.replied rfl
  | readAgain hplace hpass =>
      exact hread rfl (readKeeps_of_readPass hproper hint (Or.inl hpass))
        (readable_of_readPass hproper hint hclean (Or.inl hpass))
  | @readLeave r p hplace hpass =>
      have hkeeps := (readKeeps_of_readPass hproper hint (Or.inr ⟨p.2, hpass⟩)).close p.2
      have hreadable := readable_of_readPass hproper hint hclean (Or.inr ⟨p.2, hpass⟩)
      exact hread rfl hkeeps ((congrArg _ (inBuffer_close p.1 p.2)).trans hreadable)
  | @excute fuel p hplace hexcute =>
      cases hflows
      rw [TcpConnection.excute, if_pos hserves.connectionType_eq] at hexcute
      obtain ⟨⟨inBuffer, result⟩, hdecode, hexcute⟩ := Option.bind_eq_some_iff.1 hexcute
      obtain ⟨⟨sent, outBuffer⟩, hencode, heq⟩ := Option.bind_eq_some_iff.1 hexcute
      cases heq
      exact h.server hserver (h.toServer.decode hproper hclean hdecode) rfl rfl h.toClient
        (List.Subset.trans h.replied (List.map_subset _ (List.subset_append_left _ _))) rfl
  | writeAgain hplace hpass =>
      have hfire := eq_fire_of_writePass (Or.inl hpass)
      subst hfire
      exact hwrite rfl rfl
  | writeLeave hplace hdata hpass =>
      have hfire := eq_fire_of_writePass (Or.inr hpass)
      subst hfire
      exact hwrite rfl rfl
  | shutdown =>
      cases hflows
      exact h.server hserver (h.toServer.congr (shutdown_inBuffer _).1) rfl hquiet h.toClient
        h.replied rfl

theorem requests_subset {op : SessionOp} {out : Option (Bytes × TinyPBProtocol)}
    (hstep : step d s op = some (s', out)) : s.requests ⊆ s'.requests := by
  cases op with
  | client op =>
      obtain ⟨_, _, hrest⟩ := Option.bind_eq_some_iff.1 hstep
      obtain ⟨_, _, heq⟩ := Option.bind_eq_some_iff.1 hrest
      cases heq
      exact List.subset_append_left _ _
  | server op =>
      obtain ⟨_, _, hrest⟩ := Option.bind_eq_some_iff.1 hstep
      obtain ⟨_, _, heq⟩ := Option.bind_eq_some_iff.1 hrest
      cases heq
      exact List.Subset.refl _

theorem Consistent.step (h : Consistent d s) {op : SessionOp} (hclean : Clean s op)
    {out : Option (Bytes × TinyPBProtocol)} (hstep : Session.step d s op = some (s', out)) :
    Consistent d s' ∧ ∀ p ∈ out, Answers d s'.requests p := by
  cases op with
  | client op => exact h.clientStep hclean hstep
  | server op =>
      obtain ⟨hconsistent, rfl⟩ := h.serverStep hclean hstep
      exact ⟨hconsistent, nofun⟩

theorem Answers.mono {requests requests' : List TinyPBProtocol} {p : Bytes × TinyPBProtocol}
    (h : Answers d requests p) (hle : requests ⊆ requests') : Answers d requests' p := by
  obtain ⟨request, hrequest, hid, heq⟩ := h
  exact ⟨request, hle hrequest, hid, heq⟩

end Step

/-- What a clean run of a client and a server comes to: the requests and the replies arrive as
they have been sent, in their order and none twice; the replies are those of the dispatcher to
requests that have arrived; and a caller that gets a reply gets the answer to a request with
the message id that it has asked for. -/
structure Faithful (d : RpcDispatcher Method Message) (s : Session)
    (outs : List (Option (Bytes × TinyPBProtocol))) : Prop where
  requests : s.toServer.arrived <+: s.toServer.sent.map delivered
  requested : s.toServer.sent ⊆ s.requests
  replies : s.toClient.arrived <+: s.toClient.sent.map delivered
  replied : s.toClient.sent ⊆ s.toServer.arrived.map (reply d)
  answers : ∀ out ∈ outs, ∀ p ∈ out, Answers d s.requests p

theorem consistent_of_run (d : RpcDispatcher Method Message) (fd fd' : ℤ) {ops : List SessionOp}
    (hclean : (machine d).Meets Clean (new fd fd') ops) {s : Session}
    {outs : List (Option (Bytes × TinyPBProtocol))}
    (hrun : (machine d).run (new fd fd') ops = some (s, outs)) :
    Consistent d s ∧ ∀ out ∈ outs, ∀ p ∈ out, Answers d s.requests p := by
  refine hclean.run_history
    (I := fun s outs => Consistent d s ∧ ∀ out ∈ outs, ∀ p ∈ out, Answers d s.requests p)
    ?_ ⟨consistent_new d fd fd', List.forall_mem_nil _⟩ hrun
  rintro s outs op s' out ⟨hconsistent, hanswers⟩ hok hstep
  obtain ⟨hconsistent', hout⟩ := hconsistent.step hok hstep
  refine ⟨hconsistent', List.forall_mem_append.2 ⟨fun out' hout' p hp => ?_,
    List.forall_mem_singleton.2 hout⟩⟩
  exact (hanswers out' hout' p hp).mono (requests_subset hstep)

theorem answers_of_run (d : RpcDispatcher Method Message) (fd fd' : ℤ) {ops : List SessionOp}
    (hclean : (machine d).Meets Clean (new fd fd') ops) {s : Session}
    {outs : List (Option (Bytes × TinyPBProtocol))}
    (hrun : (machine d).run (new fd fd') ops = some (s, outs)) :
    ∀ out ∈ outs, ∀ p ∈ out, Answers d s.requests p :=
  (consistent_of_run d fd fd' hclean hrun).2

theorem faithful_of_run (d : RpcDispatcher Method Message) (fd fd' : ℤ) {ops : List SessionOp}
    (hclean : (machine d).Meets Clean (new fd fd') ops) {s : Session}
    {outs : List (Option (Bytes × TinyPBProtocol))}
    (hrun : (machine d).run (new fd fd') ops = some (s, outs)) : Faithful d s outs := by
  obtain ⟨hconsistent, hanswers⟩ := consistent_of_run d fd fd' hclean hrun
  exact ⟨hconsistent.toServer.arrived_prefix, hconsistent.sent_subset,
    hconsistent.toClient.arrived_prefix, hconsistent.replied, hanswers⟩

def order : TinyPBProtocol :=
  { msgId := ascii "1", methodName := ascii "Order.makeOrder", pbData := [0x08, 100] }

def orderSession : List SessionOp :=
  let request := order.packet
  let response := (reply orderDispatcher order).packet
  [.client (.encode order), .client (.connect { result := .success }),
    .client (.write { result := .eagain }), .client (.write { result := .accepted 44 }),
    .server .test, .server .onRead, .server (.read { result := .bytes (request.take 20) }),
    .server (.excute 2), .server .onWrite, .server .noData, .server .test, .server .onRead,
    .server (.read { result := .bytes (request.drop 20) }), .server (.excute 2),
    .server .onWrite, .server (.write { result := .accepted response.length }),
    .client (.read { result := .bytes (response.take 30) }), .client (.excute 2),
    .client (.read { result := .bytes (response.drop 30) }), .client (.excute 2),
    .client (.getResPackageData (ascii "1"))]

theorem faithful_of_run_order :
    ∃ s outs, (machine orderDispatcher).run (new 5 7) orderSession = some (s, outs) ∧
      outs.getLast? = some (some (ascii "1", (reply orderDispatcher order).delivered)) ∧
      Faithful orderDispatcher s outs := by
  have hrun : ((machine orderDispatcher).run (new 5 7) orderSession).map
      (fun p => p.2.getLast?) =
      some (some (some (ascii "1", (reply orderDispatcher order).delivered))) := by
    decide +kernel
  obtain ⟨⟨s, outs⟩, hrun, hlast⟩ := Option.map_eq_some_iff.1 hrun
  exact ⟨s, outs, hrun, hlast, faithful_of_run orderDispatcher 5 7 (by decide +kernel) hrun⟩

end Session

end Rocket
