import Rocket.Foundation.Machine

/-!
# Machines that host parties

A machine hosts parties of another one when each of its steps lets a party join at the end
of a list, makes one party of the list take a step, or leaves them all as they are.

Then a party does not notice the others: in any run of the host it has come to where it gets
from its start with its own inputs, and its outputs are those that it gives alone
(`Hosts.alone_of_run`).
-/

namespace Foundation

/-- What a step is for the parties: one joins with `a`, or the party `i` takes an input and
gives an output. -/
inductive PartyEvent (α ι ω : Type*) where
  | joined (a : α)
  | stepped (i : ℕ) (input : ι) (output : ω)

namespace PartyEvent

variable {α ι ω : Type*}

def joins (events : List (PartyEvent α ι ω)) : List α :=
  events.filterMap fun
    | joined a => some a
    | stepped _ _ _ => none

/-- The inputs and outputs of the party `i`. -/
def own (i : ℕ) (events : List (PartyEvent α ι ω)) : List (ι × ω) :=
  events.filterMap fun
    | joined _ => none
    | stepped j input output => if j = i then some (input, output) else none

theorem own_append (i : ℕ) (events events' : List (PartyEvent α ι ω)) :
    own i (events ++ events') = own i events ++ own i events' :=
  List.filterMap_append

theorem joins_append (events events' : List (PartyEvent α ι ω)) :
    joins (events ++ events') = joins events ++ joins events' :=
  List.filterMap_append

def Joined (events : List (PartyEvent α ι ω)) (n : ℕ) : Prop :=
  ∀ i input output, stepped i input output ∈ events → i < n

theorem Joined.own_eq_nil {events : List (PartyEvent α ι ω)} {n : ℕ} (h : Joined events n) :
    own n events = [] := by
  refine List.filterMap_eq_nil_iff.2 fun event hevent => ?_
  cases event with
  | joined a => rfl
  | stepped i input output => exact if_neg (h i input output hevent).ne

end PartyEvent

namespace Machine

variable {σ τ ι κ ω υ α : Type*}

open PartyEvent

/-- Each step of `T` is what `event` says for its parties, which start as `Starts` says and
are machines `M`. -/
def Hosts (T : Machine τ κ υ) (M : Machine σ ι ω) (parties : τ → List σ)
    (Starts : α → σ → Prop) (event : κ → υ → Option (PartyEvent α ι ω)) : Prop :=
  ∀ t k t' u, T.step t k = some (t', u) →
    match event k u with
    | none => parties t' = parties t
    | some (.joined a) => ∃ s, Starts a s ∧ parties t' = parties t ++ [s]
    | some (.stepped i input output) =>
        ∃ s s', (parties t)[i]? = some s ∧ M.step s input = some (s', output) ∧
          parties t' = (parties t).set i s'

def partyEvents (event : κ → υ → Option (PartyEvent α ι ω)) (ks : List κ) (us : List υ) :
    List (PartyEvent α ι ω) :=
  (ks.zip us).filterMap fun p => event p.1 p.2

theorem partyEvents_cons (event : κ → υ → Option (PartyEvent α ι ω)) (k : κ) (ks : List κ) (u : υ)
    (us : List υ) :
    partyEvents event (k :: ks) (u :: us) = (event k u).toList ++ partyEvents event ks us := by
  cases hevent : event k u <;> simp [partyEvents, hevent]

theorem partyEvents_append {event : κ → υ → Option (PartyEvent α ι ω)} {ks ks' : List κ}
    {us us' : List υ} (hlen : ks.length = us.length) :
    partyEvents event (ks ++ ks') (us ++ us') =
      partyEvents event ks us ++ partyEvents event ks' us' := by
  rw [partyEvents, List.zip_append hlen, List.filterMap_append]
  rfl

/-- Each party is where it gets alone: from its start, with its own inputs and outputs. -/
structure Alone (M : Machine σ ι ω) (Starts : α → σ → Prop)
    (events : List (PartyEvent α ι ω)) (ss : List σ) : Prop where
  length_eq : (joins events).length = ss.length
  joined : Joined events ss.length
  run : ∀ i s, ss[i]? = some s → ∃ a s₀, (joins events)[i]? = some a ∧ Starts a s₀ ∧
    M.run s₀ ((own i events).map Prod.fst) = some (s, (own i events).map Prod.snd)

section Alone

variable {M : Machine σ ι ω} {Starts : α → σ → Prop} {events : List (PartyEvent α ι ω)}
  {ss : List σ}

theorem alone_nil (M : Machine σ ι ω) (Starts : α → σ → Prop) : Alone M Starts [] [] :=
  ⟨rfl, nofun, nofun⟩

theorem Alone.join (h : Alone M Starts events ss) {a : α} {s : σ} (hs : Starts a s) :
    Alone M Starts (events ++ [.joined a]) (ss ++ [s]) := by
  have hjoins : joins (events ++ [.joined a]) = joins events ++ [a] := joins_append events _
  have hown (i : ℕ) : own i (events ++ [.joined a]) = own i events := by
    rw [own_append]
    exact List.append_nil _
  refine ⟨?_, ?_, ?_⟩
  · rw [hjoins, List.length_append, List.length_append, h.length_eq]
    rfl
  · intro i input output hmem
    rw [List.length_append]
    rcases List.mem_append.1 hmem with hmem | hmem
    · exact Nat.lt_add_right _ (h.joined i input output hmem)
    · cases List.mem_singleton.1 hmem
  · intro i t hget
    rw [hown, hjoins]
    rcases lt_or_ge i ss.length with hlt | hge
    · rw [List.getElem?_append_left hlt] at hget
      rw [List.getElem?_append_left (h.length_eq.symm ▸ hlt)]
      exact h.run i t hget
    · obtain ⟨hi, ht⟩ := List.getElem?_eq_some_iff.1 hget
      rw [List.length_append, List.length_singleton] at hi
      have hlast : i = ss.length := by omega
      subst hlast
      rw [List.getElem_concat_length rfl] at ht
      subst ht
      refine ⟨a, s, ?_, hs, ?_⟩
      · rw [← h.length_eq]
        exact List.getElem?_concat_length
      · rw [h.joined.own_eq_nil]
        rfl

theorem Alone.step (h : Alone M Starts events ss) {i : ℕ} {s s' : σ} {input : ι} {output : ω}
    (hget : ss[i]? = some s) (hstep : M.step s input = some (s', output)) :
    Alone M Starts (events ++ [.stepped i input output]) (ss.set i s') := by
  have hlt := (List.getElem?_eq_some_iff.1 hget).1
  have hjoins : joins (events ++ [.stepped i input output]) = joins events := by
    rw [joins_append]
    exact List.append_nil _
  refine ⟨?_, ?_, ?_⟩
  · rw [hjoins, List.length_set, h.length_eq]
  · intro j input' output' hmem
    rw [List.length_set]
    rcases List.mem_append.1 hmem with hmem | hmem
    · exact h.joined j input' output' hmem
    · cases List.mem_singleton.1 hmem
      exact hlt
  · intro j t hj
    rw [hjoins, own_append]
    by_cases hij : i = j
    · subst hij
      rw [List.getElem?_set_self hlt] at hj
      cases hj
      obtain ⟨a, s₀, ha, hs₀, hrun⟩ := h.run i s hget
      have hown : own i [.stepped (α := α) i input output] = [(input, output)] := by
        simp [own]
      rw [hown, List.map_append, List.map_append]
      exact ⟨a, s₀, ha, hs₀, (run_append_eq_some_iff M s₀ _ _ s' _).2
        ⟨s, _, [output], hrun, run_cons hstep rfl, rfl⟩⟩
    · rw [List.getElem?_set_ne hij] at hj
      have hown : own j [.stepped (α := α) i input output] = [] := by
        simp [own, hij]
      rw [hown, List.append_nil]
      exact h.run j t hj

end Alone

/-- In every run each party is where it gets alone. -/
theorem Hosts.alone_of_run {T : Machine τ κ υ} {M : Machine σ ι ω} {parties : τ → List σ}
    {Starts : α → σ → Prop} {event : κ → υ → Option (PartyEvent α ι ω)}
    (h : Hosts T M parties Starts event) {t₀ t : τ} {ks : List κ} {us : List υ}
    (hempty : parties t₀ = []) (hrun : T.run t₀ ks = some (t, us)) :
    Alone M Starts (partyEvents event ks us) (parties t) := by
  suffices hlen : ks.length = us.length ∧ Alone M Starts (partyEvents event ks us) (parties t) from
    hlen.2
  refine run_recorded (I := fun t ks us =>
    ks.length = us.length ∧ Alone M Starts (partyEvents event ks us) (parties t)) ?_ ?_ hrun
  · rintro t ks us k t' u ⟨hlen, halone⟩ hstep
    refine ⟨by rw [List.length_append, List.length_append, hlen]; rfl, ?_⟩
    have hparties := h t k t' u hstep
    rw [partyEvents_append hlen, partyEvents_cons]
    cases hevent : event k u with
    | none =>
        rw [hevent] at hparties
        rw [hparties]
        exact (List.append_nil _).symm ▸ halone
    | some event' =>
        rw [hevent] at hparties
        cases event' with
        | joined a =>
            obtain ⟨s, hs, heq⟩ := hparties
            exact heq ▸ halone.join hs
        | stepped i input output =>
            obtain ⟨s, s', hget, hstep', heq⟩ := hparties
            exact heq ▸ halone.step hget hstep'
  · exact ⟨rfl, hempty ▸ alone_nil M Starts⟩

end Machine

end Foundation
