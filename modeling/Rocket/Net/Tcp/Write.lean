import Rocket.Foundation.Machine
import Rocket.Net.Coder.Encode
import Rocket.Net.Tcp.TcpConnection

/-!
# What onWrite sends

`sendMachine` alternates between encoding messages into the out-buffer and
`onWrite`. `onWrite` never moves the read index of the out-buffer, so everything
that has ever been encoded stays readable, and each call sends it again from the
start.
-/

namespace Rocket

open Foundation TinyPBProtocol

namespace TcpConnection

/-- What a connection does with its out-buffer. -/
inductive SendOp where
  | encode (messages : List TinyPBProtocol)
  | onWrite (results : List (Hooked WriteResult))
  deriving DecidableEq

/-- The outputs are the bytes encoded and the bytes accepted by the socket. A
call of `onWrite` makes as many system calls as it is given results. -/
def sendStep (c : TcpConnection) : SendOp → Option (TcpConnection × Bytes × Bytes)
  | .encode messages =>
      (TinyPBCoder.encode messages c.outBuffer).map fun r =>
        ({ c with outBuffer := r.2 }, stream messages, [])
  | .onWrite results =>
      (c.onWrite results).bind fun (c', accepted, rest) =>
        if rest = [] then some (c', [], accepted) else none

def sendMachine : Machine TcpConnection SendOp (Bytes × Bytes) := ⟨sendStep⟩

def taken (live : Bytes) (r : Hooked WriteResult) : Bytes :=
  match r.result with
  | .accepted n => live.take n
  | _ => []

/-- The operation makes the socket accept no byte. -/
def SendOp.Idle : SendOp → Prop
  | .encode _ => True
  | .onWrite results => ∀ r ∈ results, ∀ n, r.result = .accepted n → n = 0

section Loop

variable {b : TcpBuffer} {c c' : TcpConnection} {accepted : Bytes}
  {results rest : List (Hooked WriteResult)}

/-- The results `used` are answers to requests to send `live`, and make the socket
accept the bytes `accepted`. -/
structure Sends (live : Bytes) (used : List (Hooked WriteResult)) (accepted : Bytes) : Prop where
  accepted_eq : accepted = used.flatMap (taken live)
  le_length : ∀ r ∈ used, ∀ n, r.result = .accepted n → n ≤ live.length

theorem Sends.cons {live : Bytes} {used : List (Hooked WriteResult)} {r : Hooked WriteResult}
    (h : Sends live used accepted) (hr : ∀ n, r.result = .accepted n → n ≤ live.length) :
    Sends live (r :: used) (taken live r ++ accepted) :=
  ⟨by rw [List.flatMap_cons, h.accepted_eq], List.forall_mem_cons.2 ⟨hr, h.le_length⟩⟩

/-- The passes of the loop of `onWrite` over the results `used`: the bytes that the socket
has accepted, and the connection that they leave. -/
inductive WritePasses : TcpConnection → List (Hooked WriteResult) → Bytes → TcpConnection → Prop
  | empty {c : TcpConnection} (hempty : c.outBuffer.readAble = 0) : WritePasses c [] [] c
  | all {c : TcpConnection} {r : Hooked WriteResult} {n : ℕ} {buf : Bytes}
      (hread : readBlock c.outBuffer.buffer c.outBuffer.readIndex c.outBuffer.readAble = some buf)
      (hr : r.result = .accepted n) (hall : (n : ℤ) = c.outBuffer.readAble) :
      WritePasses c [r] buf (fire c r.overTime)
  | part {c : TcpConnection} {r : Hooked WriteResult} {n : ℕ} {buf : Bytes}
      (hread : readBlock c.outBuffer.buffer c.outBuffer.readIndex c.outBuffer.readAble = some buf)
      (hr : r.result = .accepted n) (hle : ¬ (n : ℤ) > c.outBuffer.readAble) :
      WritePasses c [r] (buf.take n) (fire c r.overTime)
  | again {c c' : TcpConnection} {r : Hooked WriteResult} {used : List (Hooked WriteResult)}
      {n : ℕ} {buf accepted : Bytes}
      (hread : readBlock c.outBuffer.buffer c.outBuffer.readIndex c.outBuffer.readAble = some buf)
      (hr : r.result = .accepted n) (hle : ¬ (n : ℤ) > c.outBuffer.readAble)
      (hrest : WritePasses (fire c r.overTime) used accepted c') :
      WritePasses c (r :: used) (buf.take n ++ accepted) c'
  | failed {c : TcpConnection} {r : Hooked WriteResult} (hr : ∀ n, r.result ≠ .accepted n) :
      WritePasses c [r] [] (fire c r.overTime)
  | error {c c' : TcpConnection} {r : Hooked WriteResult} {used : List (Hooked WriteResult)}
      {accepted : Bytes} (hr : ∀ n, r.result ≠ .accepted n)
      (hrest : WritePasses (fire c r.overTime) used accepted c') :
      WritePasses c (r :: used) accepted c'

theorem onWriteLoop_of_empty (hempty : c.outBuffer.readAble = 0)
    (results : List (Hooked WriteResult)) : onWriteLoop results c = some (c, [], results) := by
  cases results <;> rw [onWriteLoop, if_pos hempty]

/-- A call of `onWrite` that returns has made its passes. What the results are that follow does
not matter. -/
theorem exists_writePasses (h : onWriteLoop results c = some (c', accepted, rest)) :
    ∃ used, results = used ++ rest ∧ WritePasses c used accepted c' ∧
      ∀ more, onWriteLoop (used ++ more) c = some (c', accepted, more) := by
  induction results generalizing c accepted with
  | nil =>
      rw [onWriteLoop] at h
      split_ifs at h with hempty
      cases h
      exact ⟨[], rfl, .empty hempty, onWriteLoop_of_empty hempty⟩
  | cons r results ih =>
      rw [onWriteLoop] at h
      split_ifs at h with hempty
      · cases h
        exact ⟨[], rfl, .empty hempty, onWriteLoop_of_empty hempty⟩
      · rcases Option.bind_eq_some_iff.1 h with ⟨buf, hread, hbody⟩
        cases hr : r.result with
        | accepted n =>
            simp only [hr] at hbody
            split_ifs at hbody with hmore hall hover
            · cases hbody
              refine ⟨[r], rfl, .all hread hr hall, fun more => ?_⟩
              simp [onWriteLoop, hempty, hread, hr, hall]
            · cases hbody
              refine ⟨[r], rfl, .part hread hr hmore, fun more => ?_⟩
              simp [onWriteLoop, hempty, hread, hr, hmore, hall, hover]
            · rcases Option.bind_eq_some_iff.1 hbody with ⟨⟨c₁, accepted₁, rest₁⟩, hloop, heq⟩
              cases heq
              obtain ⟨used, rfl, hrest, happend⟩ := ih hloop
              refine ⟨r :: used, rfl, .again hread hr hmore hrest, fun more => ?_⟩
              simp [onWriteLoop, hempty, hread, hr, hmore, hall, hover, happend more]
        | eagain =>
            simp only [hr] at hbody
            cases hbody
            refine ⟨[r], rfl, .failed (by simp [hr]), fun more => ?_⟩
            simp [onWriteLoop, hempty, hread, hr]
        | error =>
            simp only [hr] at hbody
            split_ifs at hbody with hover
            · cases hbody
              refine ⟨[r], rfl, .failed (by simp [hr]), fun more => ?_⟩
              simp [onWriteLoop, hempty, hread, hr, hover]
            · obtain ⟨used, rfl, hrest, happend⟩ := ih hbody
              refine ⟨r :: used, rfl, .error (by simp [hr]) hrest, fun more => ?_⟩
              simp [onWriteLoop, hempty, hread, hr, hover, happend more]

theorem WritePasses.frame {used : List (Hooked WriteResult)} (h : WritePasses c used accepted c') :
    c' = { c with isOverTime := c.isOverTime || used.any Hooked.overTime } := by
  induction h with
  | empty hempty => simp
  | all hread hr hall => simp [fire]
  | part hread hr hle => simp [fire]
  | again hread hr hle hrest ih => exact ih.trans (by simp [fire, Bool.or_assoc])
  | failed hr => simp [fire]
  | error hr hrest ih => exact ih.trans (by simp [fire, Bool.or_assoc])

theorem taken_of_accepted {live : Bytes} {r : Hooked WriteResult} {n : ℕ}
    (hr : r.result = .accepted n) : taken live r = live.take n := by
  simp only [taken, hr]

theorem taken_of_failed {live : Bytes} {r : Hooked WriteResult}
    (hr : ∀ n, r.result ≠ .accepted n) : taken live r = [] := by
  cases hres : r.result with
  | accepted n => exact absurd hres (hr n)
  | eagain => simp only [taken, hres]
  | error => simp only [taken, hres]

theorem WritePasses.sends {used : List (Hooked WriteResult)} (h : WritePasses c used accepted c')
    (hb : c.outBuffer.Sound) : Sends c.outBuffer.readable used accepted := by
  have hlive (c : TcpConnection) (hb : c.outBuffer.Sound) :
      readBlock c.outBuffer.buffer c.outBuffer.readIndex c.outBuffer.readAble =
        some c.outBuffer.readable ∧ c.outBuffer.readAble = c.outBuffer.readable.length := by
    obtain ⟨stale, spare, hlay⟩ := hb.exists_layout
    exact ⟨hlay.readBlock_live, hlay.readAble_eq⟩
  have hnil (live : Bytes) : Sends live [] [] := ⟨rfl, nofun⟩
  induction h with
  | empty hempty => exact hnil _
  | @all c r n buf hread hr hall =>
      obtain ⟨hreadable, hlen⟩ := hlive c hb
      cases hreadable.symm.trans hread
      have hcons := (hnil c.outBuffer.readable).cons (r := r) (by simp [hr]; omega)
      rwa [taken_of_accepted hr, List.append_nil, List.take_of_length_le (by omega)] at hcons
  | @part c r n buf hread hr hle =>
      obtain ⟨hreadable, hlen⟩ := hlive c hb
      cases hreadable.symm.trans hread
      have hcons := (hnil c.outBuffer.readable).cons (r := r) (by simp [hr]; omega)
      rwa [taken_of_accepted hr, List.append_nil] at hcons
  | @again c c' r used n buf accepted hread hr hle hrest ih =>
      obtain ⟨hreadable, hlen⟩ := hlive c hb
      cases hreadable.symm.trans hread
      have hcons := (ih hb).cons (r := r) (by simp [hr, fire]; omega)
      rwa [taken_of_accepted hr] at hcons
  | @failed c r hr =>
      have hcons := (hnil c.outBuffer.readable).cons (r := r) fun n hn => absurd hn (hr n)
      rwa [taken_of_failed hr] at hcons
  | @error c c' r used accepted hr hrest ih =>
      have hcons := (ih hb).cons (r := r) fun n hn => absurd hn (hr n)
      rwa [taken_of_failed hr] at hcons

/-- Nothing is accepted when every `write` accepts 0 bytes or fails. -/
theorem Sends.eq_nil_iff {live : Bytes} {used : List (Hooked WriteResult)}
    (h : Sends live used accepted) :
    accepted = [] ↔ ∀ r ∈ used, ∀ n, r.result = .accepted n → n = 0 := by
  rw [h.accepted_eq, List.flatMap_eq_nil_iff]
  refine forall₂_congr fun r hr => ?_
  have hle := h.le_length r hr
  cases hres : r.result with
  | accepted n =>
      have hfit := hle n hres
      simp only [taken, hres, List.take_eq_nil_iff, WriteResult.accepted.injEq, forall_eq']
      refine ⟨fun hnil => hnil.elim id fun hlive => ?_, Or.inl⟩
      rw [hlive, List.length_nil] at hfit
      omega
  | eagain => simp [taken, hres]
  | error => simp [taken, hres]

/-- `onWrite` leaves the connection as it is but for the flag of the timer. -/
theorem onWrite_spec (h : c.onWrite results = some (c', accepted, rest)) :
    ∃ used, results = used ++ rest ∧
      c' = { c with isOverTime := c.isOverTime || used.any Hooked.overTime } ∧
      (c.outBuffer.Sound → Sends c.outBuffer.readable used accepted) := by
  unfold onWrite at h
  split_ifs at h
  · cases h
    exact ⟨[], rfl, by simp, fun _ => ⟨rfl, nofun⟩⟩
  · cases h
    exact ⟨[], rfl, by simp, fun _ => ⟨rfl, nofun⟩⟩
  · obtain ⟨used, hused, hpasses, -⟩ := exists_writePasses h
    exact ⟨used, hused, hpasses.frame, hpasses.sends⟩

/-- The call takes the results `used`, whatever follows. -/
theorem exists_onWrite_append (h : c.onWrite results = some (c', accepted, rest)) :
    ∃ used, results = used ++ rest ∧
      ∀ more, c.onWrite (used ++ more) = some (c', accepted, more) := by
  unfold onWrite at h ⊢
  split_ifs at h ⊢
  · cases h
    exact ⟨[], rfl, fun _ => rfl⟩
  · cases h
    exact ⟨[], rfl, fun _ => rfl⟩
  · obtain ⟨used, hused, -, happend⟩ := exists_writePasses h
    exact ⟨used, hused, happend⟩

theorem sendStep_spec {op : SendOp} {encoded : Bytes} (hb : c.outBuffer.Sound)
    (h : sendStep c op = some (c', encoded, accepted)) :
    c'.outBuffer.Sound ∧ c'.outBuffer.readable = c.outBuffer.readable ++ encoded ∧
      (accepted = [] ↔ op.Idle) := by
  cases op with
  | encode messages =>
      rcases Option.map_eq_some_iff.1 h with ⟨⟨messages', b'⟩, hencode, heq⟩
      cases heq
      obtain ⟨hb', hread, _⟩ := TinyPBCoder.encode_spec hb hencode
      exact ⟨hb', hread, by simp [SendOp.Idle]⟩
  | onWrite results =>
      rcases Option.bind_eq_some_iff.1 h with ⟨⟨c₁, accepted₁, rest₁⟩, hwrite, heq⟩
      rcases Option.ite_none_right_eq_some.1 heq with ⟨hrest, heq⟩
      cases hrest
      cases heq
      obtain ⟨used, hused, rfl, hsends⟩ := onWrite_spec hwrite
      rw [List.append_nil] at hused
      exact ⟨hb, (List.append_nil _).symm, hused ▸ (hsends hb).eq_nil_iff⟩

end Loop

theorem sendMachine_run_spec {c s : TcpConnection} {ops : List SendOp}
    {outs : List (Bytes × Bytes)} (hb : c.outBuffer.Sound)
    (hrun : sendMachine.run c ops = some (s, outs)) :
    s.outBuffer.readable = c.outBuffer.readable ++ outs.flatMap Prod.fst ∧
      (outs.flatMap Prod.snd = [] ↔ ∀ op ∈ ops, op.Idle) := by
  induction ops generalizing c outs with
  | nil =>
      cases hrun
      simp
  | cons op ops ih =>
      obtain ⟨c₁, ⟨encoded, accepted⟩, outs', hstep, hrest, rfl⟩ :=
        (Machine.run_cons_eq_some_iff sendMachine c op ops s outs).1 hrun
      obtain ⟨hb₁, hread, hnil⟩ := sendStep_spec hb hstep
      obtain ⟨hread', hnil'⟩ := ih hb₁ hrest
      refine ⟨?_, ?_⟩
      · rw [hread', hread, List.append_assoc, List.flatMap_cons]
      · rw [List.flatMap_cons, List.append_eq_nil_iff, hnil, hnil', List.forall_mem_cons]

/-- The bytes accepted by the socket so far, followed by the readable bytes of the
out-buffer, are those that were readable at first and those encoded since. -/
def SentOnce (c s : TcpConnection) (outs : List (Bytes × Bytes)) : Prop :=
  outs.flatMap Prod.snd ++ s.outBuffer.readable =
    c.outBuffer.readable ++ outs.flatMap Prod.fst

/-- Every byte is sent exactly once, at every point of a run, exactly when the
socket never accepts one. -/
theorem sentOnce_iff {c : TcpConnection} (hb : c.outBuffer.Sound) {ops : List SendOp}
    (hops : (sendMachine.run c ops).isSome) :
    (∀ done, done <+: ops → ∀ s outs, sendMachine.run c done = some (s, outs) →
      SentOnce c s outs) ↔ ∀ op ∈ ops, op.Idle := by
  have hpoint : ∀ done s outs, sendMachine.run c done = some (s, outs) →
      (SentOnce c s outs ↔ ∀ op ∈ done, op.Idle) := by
    intro done s outs hrun
    obtain ⟨hread, hnil⟩ := sendMachine_run_spec hb hrun
    rw [SentOnce, hread, ← hnil]
    simp
  constructor
  · intro hsent
    rcases Option.isSome_iff_exists.1 hops with ⟨⟨s, outs⟩, hrun⟩
    exact (hpoint ops s outs hrun).1 (hsent ops (List.prefix_refl ops) s outs hrun)
  · intro hidle done hdone s outs hrun
    exact (hpoint done s outs hrun).2 fun op hop => hidle op (hdone.subset hop)

theorem addClient_sound : (addClient 5).outBuffer.Sound := TcpBuffer.sound_new (by decide)

/-- A response that waits because the socket is full. -/
theorem sentOnce_iff_waiting :
    (∀ done, done <+: [.encode [{ msgId := [49] }], .onWrite [⟨.eagain, false⟩]] →
      ∀ s outs, sendMachine.run (addClient 5) done = some (s, outs) →
        SentOnce (addClient 5) s outs) ↔
      ∀ op ∈ [SendOp.encode [{ msgId := [49] }], .onWrite [⟨.eagain, false⟩]], op.Idle :=
  sentOnce_iff addClient_sound (by decide +kernel)

/-- A response that is sent as a whole is sent again behind the next one. -/
theorem not_sentOnce_addClient :
    (sendMachine.run (addClient 5) [.encode [{ msgId := [49] }], .onWrite [⟨.accepted 27, false⟩],
        .encode [{ msgId := [50] }], .onWrite [⟨.accepted 54, false⟩]]).map Prod.snd =
      some [(stream [{ msgId := [49] }], []), ([], stream [{ msgId := [49] }]),
        (stream [{ msgId := [50] }], []), ([], stream [{ msgId := [49] }, { msgId := [50] }])] ∧
      ¬ ∀ s outs, sendMachine.run (addClient 5) [.encode [{ msgId := [49] }],
        .onWrite [⟨.accepted 27, false⟩]] = some (s, outs) → SentOnce (addClient 5) s outs := by
  refine ⟨by decide +kernel, fun h => ?_⟩
  have hrun : ((sendMachine.run (addClient 5) [.encode [{ msgId := [49] }],
      .onWrite [⟨.accepted 27, false⟩]]).map fun p =>
        (decide (p.2.flatMap Prod.snd ++ p.1.outBuffer.readable =
          (addClient 5).outBuffer.readable ++ p.2.flatMap Prod.fst))) = some false := by
    decide +kernel
  rcases Option.map_eq_some_iff.1 hrun with ⟨⟨s, outs⟩, hs, hsent⟩
  exact of_decide_eq_false hsent (h s outs hs)

end TcpConnection

end Rocket
