import Mathlib.Data.List.Forall2
import Rocket.Net.Coder.RoundTrip
import Rocket.Net.Rpc.RpcDispatcher
import Rocket.Net.Tcp.TcpConnection

/-!
# What excute answers

A connection of a server decodes the requests in its in-buffer, dispatches each,
and encodes the responses into its out-buffer; a connection of a client stores
the replies it decodes. Since decoding gives back the messages whose packets the
in-buffer holds, a server answers every request with one response, in the order
of the requests.
-/

namespace Rocket

open Foundation TinyPBProtocol TinyPBCoder

namespace TcpConnection

variable {Method Message : Type}

/-- `std::map::insert` keeps the reply that is stored already. -/
def insertReply (replyMsg : Bytes → Option TinyPBProtocol) (m : TinyPBProtocol) :
    Bytes → Option TinyPBProtocol :=
  if (replyMsg m.msgId).isSome then replyMsg else Function.update replyMsg m.msgId (some m)

/-- `TcpConnection::excute`, with the calls made by the dispatcher. -/
def excute (c : TcpConnection) (d : RpcDispatcher Method Message) (fuel : ℕ) :
    Option (TcpConnection × List (Invocation Method Message)) :=
  if c.connectionType = .byServer then do
    let (inBuffer, result) ← decode fuel [] c.inBuffer
    let replies := result.map fun request => d.dispatch request {}
    let (_, outBuffer) ← encode (replies.map Prod.fst) c.outBuffer
    some ({ c with inBuffer := inBuffer, outBuffer := outBuffer }, replies.flatMap Prod.snd)
  else do
    let (inBuffer, result) ← decode fuel [] c.inBuffer
    some ({ c with inBuffer := inBuffer, replyMsg := result.foldl insertReply c.replyMsg }, [])

theorem excute_frame {c c' : TcpConnection} {d : RpcDispatcher Method Message} {fuel : ℕ}
    {calls : List (Invocation Method Message)} (h : c.excute d fuel = some (c', calls)) :
    ∃ inBuffer outBuffer replyMsg,
      c' = { c with inBuffer := inBuffer, outBuffer := outBuffer, replyMsg := replyMsg } := by
  unfold excute at h
  split_ifs at h
  · simp only [Option.bind_eq_bind, Option.bind_eq_some_iff, Prod.exists, Option.some.injEq,
      Prod.mk.injEq] at h
    obtain ⟨_, _, _, _, _, _, rfl, _⟩ := h
    exact ⟨_, _, _, rfl⟩
  · simp only [Option.bind_eq_bind, Option.bind_eq_some_iff, Prod.exists, Option.some.injEq,
      Prod.mk.injEq] at h
    obtain ⟨_, _, _, rfl, _⟩ := h
    exact ⟨_, _, _, rfl⟩

/-- A message with its own message id arrives with the fields that the dispatcher
reads. -/
theorem dispatch_delivered (d : RpcDispatcher Method Message) {m : TinyPBProtocol}
    (hid : m.msgId ≠ []) (response : TinyPBProtocol) :
    d.dispatch m.delivered response = d.dispatch m response := by
  rw [delivered_eq hid]
  exact RpcDispatcher.dispatch_congr rfl rfl rfl response

/-- A server that holds the packets of `requests` replies to each of them once,
in their order, behind what its out-buffer held before. It calls the method of
each request that reaches one, once and in the order of the requests. -/
theorem excute_replies (d : RpcDispatcher Method Message) {c : TcpConnection}
    (hserver : c.connectionType = .byServer) {requests : List TinyPBProtocol}
    (henc : ∀ m ∈ requests, m.Encodable) (hid : ∀ m ∈ requests, m.msgId ≠ [])
    (hin : c.inBuffer.Proper) (hread : c.inBuffer.readable = stream requests)
    (hout : c.outBuffer.Sound)
    (hbelow : StaysBelow (2 ^ 30) (requests.map fun m => (d.dispatch m {}).1) c.outBuffer)
    {fuel : ℕ} (hfuel : requests.length < fuel) :
    ∃ c' replies calls, c.excute d fuel = some (c', calls.flatten) ∧
      c'.inBuffer.readAble = 0 ∧
      c'.outBuffer.readable = c.outBuffer.readable ++ stream replies ∧
      List.Forall₂ (RpcDispatcher.Replies d) requests replies ∧
      List.Forall₂ (RpcDispatcher.Calls d) requests calls := by
  obtain ⟨stale, spare, hlay⟩ := hin.exists_layout
  rw [hread] at hlay
  have henc' : ∀ m ∈ requests, m.withMsgId.Encodable := fun m hm => (henc m hm).withMsgId
  obtain ⟨inBuffer, stale', spare', hdecode, hlay', _⟩ := decode_stream henc' hlay hin [] hfuel
  obtain ⟨messages', outBuffer, hencode⟩ := exists_encode hout hbelow
  obtain ⟨_, hreadable, _⟩ := encode_spec hout hencode
  have hdispatch : (requests.map delivered).map (fun request => d.dispatch request {}) =
      requests.map fun m => d.dispatch m {} := by
    rw [List.map_map]
    exact List.map_congr_left fun m hm => dispatch_delivered d (hid m hm) {}
  refine ⟨{ c with inBuffer := inBuffer, outBuffer := outBuffer },
    requests.map fun m => (d.dispatch m {}).1, requests.map fun m => (d.dispatch m {}).2,
    ?_, ?_, hreadable, ?_, ?_⟩
  · simp only [excute, if_pos hserver, hdecode, List.nil_append, hdispatch, Option.bind_eq_bind,
      Option.bind_some]
    rw [List.map_map, Function.comp_def, hencode, Option.bind_some, List.flatMap_map]
    rfl
  · rw [hlay'.readAble_eq]
    rfl
  · rw [List.forall₂_map_right_iff, List.forall₂_same]
    exact fun m _ => (RpcDispatcher.dispatch_spec d m).1
  · rw [List.forall₂_map_right_iff, List.forall₂_same]
    exact fun m _ => (RpcDispatcher.dispatch_spec d m).2

/-- The service of the test server, with its messages in wire form, as far as an
empty request and one with the price 100 go. -/
def orderService : Service Unit Bytes where
  findMethodByName name := if name = ascii "makeOrder" then some () else none
  parseFromString _ data := if data = [] ∨ data = [0x08, 100] then some data else none
  callMethod _ _ request :=
    if request = [] then
      [0x08] ++ List.replicate 9 0xff ++ [0x01] ++ [0x12, 13] ++ ascii "short balance"
    else [0x1a, 8] ++ ascii "20231225"
  serializeToString _ message := (true, message)

def orderDispatcher : RpcDispatcher Unit Bytes :=
  ⟨fun name => if name = ascii "Order" then some orderService else none⟩

def orderRequests : List TinyPBProtocol :=
  [{ msgId := ascii "1", methodName := ascii "Order.makeOrder", pbData := [0x08, 100] },
    { msgId := ascii "2", methodName := ascii "Order.cancel" }]

def orderConnection : TcpConnection :=
  { addClient 5 with inBuffer := ⟨0, 83, stream orderRequests ++ List.replicate 45 0⟩ }

theorem orderRequests_encodable : ∀ m ∈ orderRequests, m.Encodable := by decide

/-- The two requests to the service of the test server. -/
theorem excute_replies_orders :
    ∃ c' replies calls, orderConnection.excute orderDispatcher 3 = some (c', calls.flatten) ∧
      c'.inBuffer.readAble = 0 ∧
      c'.outBuffer.readable = orderConnection.outBuffer.readable ++ stream replies ∧
      List.Forall₂ (RpcDispatcher.Replies orderDispatcher) orderRequests replies ∧
      List.Forall₂ (RpcDispatcher.Calls orderDispatcher) orderRequests calls :=
  excute_replies orderDispatcher (by decide) orderRequests_encodable (by decide)
    (by decide +kernel) (by decide +kernel) (by decide +kernel) (by decide +kernel) (by decide)

end TcpConnection

end Rocket
