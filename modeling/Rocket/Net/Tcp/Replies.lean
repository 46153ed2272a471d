import Rocket.Foundation.KeyedStore
import Rocket.Foundation.Machine
import Rocket.Net.Tcp.ClientCall

/-!
# Replies that wait for their calls

The connection of a client stores the replies it decodes under their message ids, and
a waiting call takes its reply out. In a run that reads, decodes and looks up in any
order, the replies that are stored are those that have been decoded and not taken, as
long as no two of them have the same message id.
-/

namespace Rocket

open Foundation TinyPBProtocol TinyPBCoder

namespace TcpConnection

/-- `getResPackageData` with its reference parameter `pb_protocol`, which is empty or
holds a message, and with the value it returns. -/
def getResPackageDataInto (c : TcpConnection) (msgId : Bytes)
    (pbProtocol : Option TinyPBProtocol) : TcpConnection × Option TinyPBProtocol × Bool :=
  match c.getResPackageData msgId with
  | some (m, c') => (c', some m, true)
  | none => (c, pbProtocol, false)

inductive ReplyOp where
  | setState (state : TcpState)
  | onRead (results : List (Hooked ReadResult))
  | excute (fuel : ℕ)
  | getResPackageData (msgId : Bytes) (pbProtocol : Option TinyPBProtocol)

/-- What is seen of it: the replies that `excute` decodes, and the answer of a lookup. -/
inductive ReplyEvent where
  | none
  | decoded (result : List TinyPBProtocol)
  | answered (pbProtocol : Option TinyPBProtocol) (found : Bool)
  deriving DecidableEq

def replyMachine {Method Message : Type} (d : RpcDispatcher Method Message) :
    Machine TcpConnection ReplyOp ReplyEvent where
  step c
    | .setState state => some (c.setState state, .none)
    | .onRead results => (c.onRead results).map fun r => (r.1, .none)
    | .excute fuel => do
        let (_, result) ← decode fuel [] c.inBuffer
        let (c', _) ← c.excute d fuel
        some (c', .decoded result)
    | .getResPackageData msgId pbProtocol =>
        let (c', pbProtocol', found) := c.getResPackageDataInto msgId pbProtocol
        some (c', .answered pbProtocol' found)

def decodedIn (events : List ReplyEvent) : List TinyPBProtocol :=
  events.flatMap fun
    | .decoded result => result
    | _ => []

def takenIn (events : List ReplyEvent) : List TinyPBProtocol :=
  events.flatMap fun
    | .answered pbProtocol true => pbProtocol.toList
    | _ => []

/-- A reply is waiting: it has been decoded and not been taken. -/
def Waiting (events : List ReplyEvent) (m : TinyPBProtocol) : Prop :=
  m ∈ decodedIn events ∧ m ∉ takenIn events

@[simp] theorem decodedIn_append (events events' : List ReplyEvent) :
    decodedIn (events ++ events') = decodedIn events ++ decodedIn events' := List.flatMap_append

@[simp] theorem takenIn_append (events events' : List ReplyEvent) :
    takenIn (events ++ events') = takenIn events ++ takenIn events' := List.flatMap_append

@[simp] theorem decodedIn_decoded (result : List TinyPBProtocol) :
    decodedIn [.decoded result] = result := List.append_nil result

@[simp] theorem takenIn_decoded (result : List TinyPBProtocol) :
    takenIn [.decoded result] = [] := rfl

@[simp] theorem decodedIn_answered (pbProtocol : Option TinyPBProtocol) (found : Bool) :
    decodedIn [.answered pbProtocol found] = [] := rfl

@[simp] theorem takenIn_answered (m : TinyPBProtocol) :
    takenIn [.answered (some m) true] = [m] := rfl

/-- The replies in the store are the waiting ones, none has been handed out twice, and
the next lookup finds the waiting reply with its id, or changes nothing. -/
structure Matched (c : TcpConnection) (events : List ReplyEvent) : Prop where
  stored : ∀ msgId m, c.replyMsg msgId = some m ↔ Waiting events m ∧ m.msgId = msgId
  taken_nodup : (takenIn events).Nodup
  taken_decoded : ∀ m ∈ takenIn events, m ∈ decodedIn events
  found : ∀ msgId pbProtocol m, Waiting events m → m.msgId = msgId →
    c.getResPackageDataInto msgId pbProtocol =
      ({ c with replyMsg := Function.update c.replyMsg msgId Option.none }, some m, true)
  missing : ∀ msgId pbProtocol, (∀ m, Waiting events m → m.msgId ≠ msgId) →
    c.getResPackageDataInto msgId pbProtocol = (c, pbProtocol, false)

/-- What the steps of a run keep. -/
structure StoresWaiting (c : TcpConnection) (events : List ReplyEvent) : Prop where
  connectionType_eq : c.connectionType = .byClient
  stored : Stores msgId c.replyMsg {m | Waiting events m}
  taken_nodup : (takenIn events).Nodup
  taken_decoded : ∀ m ∈ takenIn events, m ∈ decodedIn events

section Steps

variable {Method Message : Type} {d : RpcDispatcher Method Message} {c c' : TcpConnection}
variable {events : List ReplyEvent}

theorem getResPackageDataInto_eq {id : Bytes} {m : TinyPBProtocol} (h : c.replyMsg id = some m)
    (pbProtocol : Option TinyPBProtocol) : c.getResPackageDataInto id pbProtocol =
      ({ c with replyMsg := Function.update c.replyMsg id none }, some m, true) := by
  rw [getResPackageDataInto, getResPackageData, h]
  rfl

theorem getResPackageDataInto_eq_self {id : Bytes} (h : c.replyMsg id = none)
    (pbProtocol : Option TinyPBProtocol) :
    c.getResPackageDataInto id pbProtocol = (c, pbProtocol, false) := by
  rw [getResPackageDataInto, getResPackageData, h]
  rfl

theorem StoresWaiting.of_replyMsg_eq (h : StoresWaiting c events) {e : ReplyEvent}
    (htype : c'.connectionType = c.connectionType) (hreply : c'.replyMsg = c.replyMsg)
    (hdecoded : decodedIn [e] = []) (htaken : takenIn [e] = []) :
    StoresWaiting c' (events ++ [e]) := by
  refine ⟨htype.trans h.connectionType_eq, ?_, ?_, ?_⟩
  · rw [hreply]
    simpa [Waiting, hdecoded, htaken] using h.stored
  · simpa [htaken] using h.taken_nodup
  · simpa [hdecoded, htaken] using h.taken_decoded

theorem StoresWaiting.excute (h : StoresWaiting c events) {fuel : ℕ} {inBuffer : TcpBuffer}
    {result : List TinyPBProtocol} (hdecode : decode fuel [] c.inBuffer = some (inBuffer, result))
    {calls : List (Invocation Method Message)} (hexcute : c.excute d fuel = some (c', calls))
    (hdistinct : ((decodedIn events ++ result).map msgId).Nodup) :
    StoresWaiting c' (events ++ [.decoded result]) := by
  rw [List.map_append, List.nodup_append] at hdistinct
  obtain ⟨_, hresult, hnew⟩ := hdistinct
  have hfresh : ∀ m ∈ result, ∀ m' ∈ decodedIn events, m'.msgId ≠ m.msgId := fun m hm m' hm' =>
    hnew m'.msgId (List.mem_map_of_mem hm') m.msgId (List.mem_map_of_mem hm)
  rw [excute_client_eq h.connectionType_eq, hdecode] at hexcute
  cases hexcute
  have hstored := h.stored.foldl_insertNew hresult fun m hm m' hm' => hfresh m hm m' hm'.1
  have hwaiting : {m | Waiting (events ++ [.decoded result]) m} =
      {m | Waiting events m} ∪ {m | m ∈ result} := by
    ext m
    simp only [Waiting, decodedIn_append, takenIn_append, decodedIn_decoded, takenIn_decoded,
      List.append_nil, List.mem_append, Set.mem_union, Set.mem_ofPred_eq, or_and_right]
    refine or_congr_right ⟨And.left, fun hm => ⟨hm, fun htaken => ?_⟩⟩
    exact hfresh m hm m (h.taken_decoded m htaken) rfl
  refine ⟨h.connectionType_eq, hwaiting ▸ hstored, ?_, ?_⟩
  · simpa using h.taken_nodup
  · intro m hm
    rw [takenIn_append, takenIn_decoded, List.append_nil] at hm
    rw [decodedIn_append]
    exact List.mem_append_left _ (h.taken_decoded m hm)

theorem StoresWaiting.take (h : StoresWaiting c events) {id : Bytes} {m : TinyPBProtocol}
    (hm : c.replyMsg id = some m) :
    StoresWaiting { c with replyMsg := Function.update c.replyMsg id none }
      (events ++ [.answered (some m) true]) := by
  obtain ⟨hdecoded, hfresh⟩ := ((h.stored id m).1 hm).1
  have hwaiting : {m' | Waiting (events ++ [.answered (some m) true]) m'} =
      {m' | Waiting events m'} \ {m} := by
    ext m'
    simp only [Waiting, decodedIn_append, takenIn_append, decodedIn_answered, takenIn_answered,
      List.append_nil, List.mem_append, List.mem_singleton, Set.mem_sdiff, Set.mem_ofPred_eq,
      Set.mem_singleton_iff, not_or, and_assoc]
  refine ⟨h.connectionType_eq, hwaiting ▸ h.stored.take hm, ?_, ?_⟩
  · rw [takenIn_append, takenIn_answered, List.nodup_append]
    refine ⟨h.taken_nodup, by simp, ?_⟩
    intro m₁ hm₁ m₂ hm₂ heq
    rw [List.mem_singleton] at hm₂
    exact hfresh (hm₂ ▸ heq ▸ hm₁)
  · intro m' hm'
    rw [takenIn_append, takenIn_answered, List.mem_append, List.mem_singleton] at hm'
    rw [decodedIn_append, decodedIn_answered, List.append_nil]
    rcases hm' with hm' | rfl
    · exact h.taken_decoded m' hm'
    · exact hdecoded

theorem StoresWaiting.step (h : StoresWaiting c events) {op : ReplyOp} {e : ReplyEvent}
    (hstep : (replyMachine d).step c op = some (c', e))
    (hdistinct : ((decodedIn (events ++ [e])).map msgId).Nodup) :
    StoresWaiting c' (events ++ [e]) := by
  cases op with
  | setState state =>
      cases hstep
      exact h.of_replyMsg_eq rfl rfl rfl rfl
  | onRead results =>
      rcases Option.map_eq_some_iff.1 hstep with ⟨⟨c₁, rest⟩, hread, heq⟩
      obtain ⟨_, _, _, _, rfl, _⟩ := onRead_frame hread
      cases heq
      exact h.of_replyMsg_eq rfl rfl rfl rfl
  | excute fuel =>
      simp only [replyMachine, Option.bind_eq_bind, Option.bind_eq_some_iff, Prod.exists,
        Option.some.injEq, Prod.mk.injEq] at hstep
      obtain ⟨inBuffer, result, hdecode, c₁, calls, hexcute, rfl, rfl⟩ := hstep
      rw [decodedIn_append, decodedIn_decoded] at hdistinct
      exact h.excute hdecode hexcute hdistinct
  | getResPackageData id pbProtocol =>
      cases hfind : c.replyMsg id with
      | none =>
          simp only [replyMachine, getResPackageDataInto_eq_self hfind, Option.some.injEq,
            Prod.mk.injEq] at hstep
          obtain ⟨rfl, rfl⟩ := hstep
          exact h.of_replyMsg_eq rfl rfl rfl rfl
      | some m =>
          simp only [replyMachine, getResPackageDataInto_eq hfind, Option.some.injEq,
            Prod.mk.injEq] at hstep
          obtain ⟨rfl, rfl⟩ := hstep
          exact h.take hfind

theorem StoresWaiting.matched (h : StoresWaiting c events) : Matched c events where
  stored := h.stored
  taken_nodup := h.taken_nodup
  taken_decoded := h.taken_decoded
  found id pbProtocol m hm hid :=
    getResPackageDataInto_eq ((h.stored id m).2 ⟨hm, hid⟩) pbProtocol
  missing id pbProtocol hnone :=
    getResPackageDataInto_eq_self ((h.stored.eq_none_iff id).2 hnone) pbProtocol

/-- In every run of a client whose store is empty at first, and whose replies have
distinct ids, lookups are matched with replies. -/
theorem replies_matched {ops : List ReplyOp} (hclient : c.connectionType = .byClient)
    (hempty : c.replyMsg = fun _ => none)
    (hrun : (replyMachine d).run c ops = some (c', events))
    (hdistinct : ((decodedIn events).map msgId).Nodup) : Matched c' events := by
  have hstart : StoresWaiting c [] := by
    refine ⟨hclient, ?_, List.nodup_nil, List.forall_mem_nil _⟩
    rw [hempty]
    intro id m
    simp [Waiting, decodedIn]
  have hstep : ∀ s es op s' e,
      (((decodedIn es).map msgId).Nodup → StoresWaiting s es) →
        (replyMachine d).step s op = some (s', e) →
          ((decodedIn (es ++ [e])).map msgId).Nodup → StoresWaiting s' (es ++ [e]) := by
    intro s es op s' e h hs hnodup
    have hprefix : ((decodedIn es).map msgId).Nodup := by
      rw [decodedIn_append, List.map_append] at hnodup
      exact (List.nodup_append.1 hnodup).1
    exact (h hprefix).step hs hnodup
  have hkeep := Machine.run_history (I := fun s es => ((decodedIn es).map msgId).Nodup →
    StoresWaiting s es) hstep (fun _ => hstart) hrun
  exact (hkeep hdistinct).matched

theorem step_excute_stream (hc : c.IsClient) {replies : List TinyPBProtocol}
    (henc : ∀ m ∈ replies, m.withMsgId.Encodable) (hread : c.inBuffer.readable = stream replies)
    {fuel : ℕ} (hfuel : replies.length < fuel) :
    ∃ c', (replyMachine d).step c (.excute fuel) =
      some (c', .decoded (replies.map delivered)) := by
  obtain ⟨stale, spare, hlay⟩ := hc.inBuffer_proper.exists_layout
  rw [hread] at hlay
  obtain ⟨inBuffer, _, _, hdecode, _⟩ := decode_stream henc hlay hc.inBuffer_proper [] hfuel
  simp only [replyMachine, excute_client_eq hc.connectionType_eq, hdecode, List.nil_append,
    Option.bind_eq_bind, Option.bind_some, Option.map_some]
  exact ⟨_, rfl⟩

end Steps

/-- Two replies in one batch, taken in the other order; the first is asked for before it
has been read, and once more after it has been taken. -/
theorem replies_matched_two :
    let first : TinyPBProtocol := { msgId := ascii "1", methodName := ascii "Order.makeOrder" }
    let second : TinyPBProtocol := { msgId := ascii "2", errCode := 7, errInfo := ascii "error" }
    let c := (new 5 128 .byClient).setState .connected
    let ops : List ReplyOp := [.getResPackageData (ascii "1") none,
      .onRead [⟨.bytes (stream [second, first]), false⟩], .excute 3,
      .getResPackageData (ascii "1") none, .getResPackageData (ascii "2") (some first),
      .getResPackageData (ascii "1") (some second)]
    let events : List ReplyEvent := [.answered none false, .none,
      .decoded [second.delivered, first.delivered], .answered (some first.delivered) true,
      .answered (some second.delivered) true, .answered (some second) false]
    ∃ c', (replyMachine orderDispatcher).run c ops = some (c', events) ∧ Matched c' events := by
  intro first second c ops events
  have hevents : ((replyMachine orderDispatcher).run c ops).map Prod.snd = some events := by
    decide +kernel
  rcases Option.map_eq_some_iff.1 hevents with ⟨⟨c', events'⟩, hrun, heq⟩
  change events' = events at heq
  subst heq
  exact ⟨c', hrun, replies_matched rfl rfl hrun (by decide +kernel)⟩

end TcpConnection

end Rocket
