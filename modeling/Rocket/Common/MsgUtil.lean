import Rocket.Common.Util
import Rocket.Foundation.Decimal
import Rocket.Foundation.History

/-!
# MsgIDUtil

A message id is a text of 20 digits. The first one of a thread is drawn from `/dev/urandom`,
and each one after it should be the next number; when there is none, a new one should be
drawn.

The loop for the carry adds the index of the digit to it instead of 1, so the next number
comes out only if the carry stops at the digit with the index 1. And the text of nines that
the id is compared with grows with each id that is drawn.
-/

namespace Rocket

open Foundation

/-- `g_msg_id_length` -/
def msgIdLength : ℕ := 20

/-- What is read from `/dev/urandom`. -/
abbrev RandomBytes := { bytes : Bytes // bytes.length = msgIdLength }

/-- The state of a thread: `t_msg_id_no` and `t_max_msg_id_no`. -/
structure MsgIDUtil where
  msgIdNo : Bytes := []
  maxMsgIdNo : Bytes := []
  deriving DecidableEq, Repr

namespace MsgIDUtil

/-- The digits that are made of the random bytes. -/
def seed (random : RandomBytes) : Bytes := random.1.map fun x => x % 10 + UInt8.ofNat '0'.toNat

/-- The loop that looks for the last character other than `'9'`, with `i + 1` for the number
of characters that are left. It reads before it tests `i`, so it has no meaning when
all are `'9'`. -/
def scan (no : Bytes) : ℕ → Option ℕ
  | 0 => none
  | i + 1 => if no[i]? = some (UInt8.ofNat '9'.toNat) then scan no i else some i

/-- `MsgIDUtil::GenMsgID` -/
def genMsgID (s : MsgIDUtil) (random : RandomBytes) : Option (MsgIDUtil × Bytes) :=
  if s.msgIdNo = [] ∨ s.msgIdNo = s.maxMsgIdNo then
    some
      ({ msgIdNo := seed random
         maxMsgIdNo := s.maxMsgIdNo ++ List.replicate msgIdLength (UInt8.ofNat '9'.toNat) },
        seed random)
  else do
    let i ← scan s.msgIdNo s.msgIdNo.length
    let c ← s.msgIdNo[i]?
    let no := s.msgIdNo.take i ++ (c + UInt8.ofNat i) ::
      List.replicate (s.msgIdNo.length - (i + 1)) (UInt8.ofNat '0'.toNat)
    some ({ s with msgIdNo := no }, no)

def machine : Machine MsgIDUtil RandomBytes Bytes := ⟨genMsgID⟩

/-- A text of 20 decimal digits. -/
def IsMsgId (id : Bytes) : Prop := id.length = msgIdLength ∧ ∀ c ∈ id, IsDigit c

def lastMsgId : Bytes := List.replicate msgIdLength (UInt8.ofNat '9'.toNat)

/-- The id of a call, with the calls before it: it has 20 digits, and is the next number
after the id before it; the first one, and one behind the largest one, is drawn. -/
def Follows (before : List (RandomBytes × Bytes)) (call : RandomBytes × Bytes) : Prop :=
  IsMsgId call.2 ∧
    match before.getLast? with
    | none => call.2 = seed call.1
    | some prev =>
        if prev.2 = lastMsgId then call.2 = seed call.1
        else decimalValue call.2 = decimalValue prev.2 + 1

/-- An id is drawn, or the carry stops at the second digit. -/
def Continues (s : MsgIDUtil) (_ : RandomBytes) : Prop :=
  s.msgIdNo = [] ∨ s.msgIdNo = s.maxMsgIdNo ∨
    s.msgIdNo[1]? ≠ some (UInt8.ofNat '9'.toNat) ∧
      s.msgIdNo.drop 2 = List.replicate (msgIdLength - 2) (UInt8.ofNat '9'.toNat)

instance (s : MsgIDUtil) (random : RandomBytes) : Decidable (s.Continues random) :=
  inferInstanceAs (Decidable (_ ∨ _ ∨ _ ∧ _))

theorem isMsgId_seed (random : RandomBytes) : IsMsgId (seed random) := by
  refine ⟨(List.length_map ..).trans random.2, fun c hc => ?_⟩
  obtain ⟨x, -, rfl⟩ := List.mem_map.1 hc
  have hlt : x.toNat % 10 < 10 := Nat.mod_lt _ (by norm_num)
  have hdigit := isDigit_ofNat hlt
  convert hdigit using 1
  rw [← UInt8.toNat_inj]
  simp
  omega

theorem scan_append_of_le (no : Bytes) (c : UInt8) {n : ℕ} (hn : n ≤ no.length) :
    scan (no ++ [c]) n = scan no n := by
  induction n with
  | zero => rfl
  | succ i ih => rw [scan, scan, List.getElem?_append_left hn, ih (Nat.le_of_succ_le hn)]

/-- The loop finds the last character other than `'9'`. -/
theorem scan_length (no : Bytes) :
    (no = List.replicate no.length 57 ∧ scan no no.length = none) ∨
      ∃ a c m, c ≠ 57 ∧ no = a ++ c :: List.replicate m 57 ∧ scan no no.length = some a.length := by
  induction no using List.reverseRecOn with
  | nil => exact Or.inl ⟨rfl, rfl⟩
  | append_singleton no d ih =>
      rw [List.length_append, List.length_singleton, scan, List.getElem?_concat_length,
        scan_append_of_le no d le_rfl]
      by_cases hd : d = 57
      · subst hd
        have hnine : some (57 : UInt8) = some (UInt8.ofNat '9'.toNat) := rfl
        rw [if_pos hnine]
        rcases ih with ⟨hno, hscan⟩ | ⟨a, c, m, hc, hno, hscan⟩
        · refine Or.inl ⟨?_, hscan⟩
          rw [List.replicate_succ', ← hno]
        · refine Or.inr ⟨a, c, m + 1, hc, ?_, hscan⟩
          rw [hno, List.replicate_succ', List.append_assoc, List.cons_append]
      · have hne : some d ≠ some (UInt8.ofNat '9'.toNat) := fun heq => hd (Option.some.inj heq)
        rw [if_neg hne]
        exact Or.inr ⟨no, d, 0, hd, rfl, rfl⟩

/-- What is kept of a thread: its id is the last one that has been returned, and the text
that it is compared with is of nines, 20 for each id that has been drawn. -/
def Keeps (s : MsgIDUtil) (calls : List (RandomBytes × Bytes)) : Prop :=
  calls = [] ∧ s = {} ∨
    ∃ before random n, calls = before ++ [(random, s.msgIdNo)] ∧ IsMsgId s.msgIdNo ∧
      s.maxMsgIdNo = List.replicate (msgIdLength * (n + 1)) 57

section Call

variable {s s' : MsgIDUtil} {calls : List (RandomBytes × Bytes)} {random : RandomBytes}
  {id : Bytes}

theorem genMsgID_draws (h : s.msgIdNo = [] ∨ s.msgIdNo = s.maxMsgIdNo) :
    s.genMsgID random =
      some
        ({ msgIdNo := seed random
           maxMsgIdNo := s.maxMsgIdNo ++ List.replicate msgIdLength 57 }, seed random) :=
  if_pos h

theorem genMsgID_carries (h : ¬ (s.msgIdNo = [] ∨ s.msgIdNo = s.maxMsgIdNo)) {a : Bytes} {c : UInt8}
    {m : ℕ} (hno : s.msgIdNo = a ++ c :: List.replicate m 57)
    (hscan : scan s.msgIdNo s.msgIdNo.length = some a.length) :
    s.genMsgID random =
      some ({ s with msgIdNo := a ++ (c + UInt8.ofNat a.length) :: List.replicate m 48 },
        a ++ (c + UInt8.ofNat a.length) :: List.replicate m 48) := by
  have hget : s.msgIdNo[a.length]? = some c := by simp [hno]
  have htake : s.msgIdNo.take a.length = a := by simp [hno]
  have hlen : s.msgIdNo.length - (a.length + 1) = m := by
    rw [hno, List.length_append, List.length_cons, List.length_replicate]
    omega
  rw [genMsgID, if_neg h, hscan]
  simp only [Option.bind_eq_bind, Option.bind_some, hget, htake, hlen]
  rfl

/-- Adding its index to the digit at which the carry stops gives the next number iff the
index is 1. -/
theorem isMsgId_carry_iff {a : Bytes} {c : UInt8} {m : ℕ} (hc : c ≠ 57)
    (h : IsMsgId (a ++ c :: List.replicate m 57)) :
    (IsMsgId (a ++ (c + UInt8.ofNat a.length) :: List.replicate m 48) ∧
      decimalValue (a ++ (c + UInt8.ofNat a.length) :: List.replicate m 48) =
        decimalValue (a ++ c :: List.replicate m 57) + 1) ↔ a.length = 1 := by
  obtain ⟨hlen, hdigits⟩ := h
  rw [List.forall_mem_append, List.forall_mem_cons] at hdigits
  obtain ⟨ha, hdigit, -⟩ := hdigits
  rw [List.length_append, List.length_cons, List.length_replicate, msgIdLength] at hlen
  have hbound := hdigit.toNat
  have hne : c.toNat ≠ 57 := fun heq => hc (UInt8.toNat_inj.1 heq)
  have hsum : (c + UInt8.ofNat a.length).toNat = c.toNat + a.length := by
    rw [UInt8.toNat_add, UInt8.toNat_ofNat']
    omega
  constructor
  · rintro ⟨⟨-, hdigits'⟩, hvalue⟩
    rw [List.forall_mem_append, List.forall_mem_cons] at hdigits'
    rw [decimalValue_carry_iff a m hdigit hdigits'.2.1, hsum] at hvalue
    omega
  · intro hone
    have hdigit' : IsDigit (c + UInt8.ofNat a.length) := by
      rw [isDigit_iff, hsum]
      omega
    refine ⟨⟨?_, ?_⟩, (decimalValue_carry_iff a m hdigit hdigit').2 (by rw [hsum, hone])⟩
    · rw [List.length_append, List.length_cons, List.length_replicate, msgIdLength]
      exact hlen
    · rw [List.forall_mem_append, List.forall_mem_cons]
      refine ⟨ha, hdigit', fun d hd => ?_⟩
      rw [List.eq_of_mem_replicate hd]
      decide

theorem second_iff {a : Bytes} {c : UInt8} {m : ℕ} (hc : c ≠ 57)
    (hlen : (a ++ c :: List.replicate m 57).length = msgIdLength) :
    ((a ++ c :: List.replicate m 57)[1]? ≠ some (UInt8.ofNat '9'.toNat) ∧
      (a ++ c :: List.replicate m 57).drop 2 =
        List.replicate (msgIdLength - 2) (UInt8.ofNat '9'.toNat)) ↔ a.length = 1 := by
  rw [List.length_append, List.length_cons, List.length_replicate, msgIdLength] at hlen
  constructor
  · rintro ⟨hsecond, hrest⟩
    by_contra hne
    rcases Nat.lt_or_gt_of_ne hne with hlt | hgt
    · obtain rfl : a = [] := List.length_eq_zero_iff.1 (by omega)
      obtain ⟨m, rfl⟩ : ∃ m', m = m' + 1 := ⟨m - 1, by omega⟩
      exact hsecond rfl
    · have hget : ((a ++ c :: List.replicate m 57).drop 2)[a.length - 2]? = some c := by
        rw [List.getElem?_drop, show 2 + (a.length - 2) = a.length by omega]
        simp
      rw [hrest, List.getElem?_replicate, Option.ite_none_right_eq_some] at hget
      exact hc (Option.some.inj hget.2).symm
  · intro hone
    obtain ⟨d, rfl⟩ := List.length_eq_one_iff.1 hone
    obtain rfl : m = 18 := by omega
    exact ⟨fun heq => hc (Option.some.inj heq), rfl⟩

/-- A call is defined and returns what it should iff an id is drawn, or the carry stops at
the second digit. -/
theorem continues_iff (h : Keeps s calls) :
    s.Continues random ↔
      ∃ s' id, s.genMsgID random = some (s', id) ∧ Follows calls (random, id) := by
  rcases h with ⟨rfl, rfl⟩ | ⟨before, random', n, rfl, hid, hmax⟩
  · exact iff_of_true (Or.inl rfl)
      ⟨_, _, genMsgID_draws (Or.inl rfl), isMsgId_seed random, rfl⟩
  · have hne : s.msgIdNo ≠ [] := fun hnil => by simpa [hnil, msgIdLength] using hid.1
    have hlast : (before ++ [(random', s.msgIdNo)]).getLast? = some (random', s.msgIdNo) :=
      List.getLast?_concat
    by_cases heq : s.msgIdNo = s.maxMsgIdNo
    · have hnines : s.msgIdNo = lastMsgId := by
        have hlen := hid.1
        rw [heq, hmax, List.length_replicate] at hlen
        rw [heq, hmax, hlen]
        rfl
      refine iff_of_true (Or.inr (Or.inl heq))
        ⟨_, _, genMsgID_draws (Or.inr heq), isMsgId_seed random, ?_⟩
      rw [hlast]
      simp only [hnines, if_true]
    · rcases scan_length s.msgIdNo with ⟨hnines, hscan⟩ | ⟨a, c, m, hc, hno, hscan⟩
      · have hnone : s.genMsgID random = none := by
          rw [MsgIDUtil.genMsgID, if_neg (not_or.2 ⟨hne, heq⟩), hscan]
          rfl
        refine iff_of_false ?_ fun ⟨s', id, hcall, _⟩ => by rw [hnone] at hcall; cases hcall
        rintro (hnil | hmax | ⟨hsecond, -⟩)
        · exact hne hnil
        · exact heq hmax
        · rw [hnines, hid.1] at hsecond
          exact hsecond rfl
      · have hother : s.msgIdNo ≠ lastMsgId := by
          intro hnines
          have hmem : c ∈ lastMsgId := hnines ▸ hno ▸ List.mem_append_right _ List.mem_cons_self
          exact hc (List.eq_of_mem_replicate hmem)
        have hcontinues : s.Continues random ↔ a.length = 1 := by
          rw [← second_iff hc (hno ▸ hid.1), ← hno]
          exact (or_iff_right hne).trans (or_iff_right heq)
        rw [hcontinues, ← isMsgId_carry_iff hc (hno ▸ hid), ← hno,
          genMsgID_carries (not_or.2 ⟨hne, heq⟩) hno hscan]
        simp [Follows, hother]

theorem Keeps.genMsgID (h : Keeps s calls) (hok : s.Continues random)
    (hcall : s.genMsgID random = some (s', id)) : Keeps s' (calls ++ [(random, id)]) := by
  obtain ⟨_, _, hcall', hid, -⟩ := (continues_iff h).1 hok
  cases hcall.symm.trans hcall'
  have hnext : id = s'.msgIdNo ∧ (s'.maxMsgIdNo = s.maxMsgIdNo ++ List.replicate msgIdLength 57 ∨
      s'.maxMsgIdNo = s.maxMsgIdNo ∧ s.msgIdNo ≠ []) := by
    rw [MsgIDUtil.genMsgID] at hcall
    split_ifs at hcall with hdraws
    · cases hcall
      exact ⟨rfl, Or.inl rfl⟩
    · simp only [Option.bind_eq_bind, Option.bind_eq_some_iff] at hcall
      obtain ⟨i, -, c, -, heq⟩ := hcall
      cases heq
      exact ⟨rfl, Or.inr ⟨rfl, fun hnil => hdraws (Or.inl hnil)⟩⟩
  obtain ⟨rfl, hmax'⟩ := hnext
  rcases h with ⟨rfl, rfl⟩ | ⟨before, random', n, rfl, -, hmax⟩
  · refine Or.inr ⟨[], random, 0, rfl, hid, hmax'.resolve_right fun h => h.2 rfl⟩
  · rcases hmax' with hgrown | ⟨hsame, -⟩
    · refine Or.inr ⟨_, random, n + 1, rfl, hid, ?_⟩
      rw [hgrown, hmax, ← List.replicate_add]
      rfl
    · exact Or.inr ⟨_, random, n, rfl, hid, hsame.trans hmax⟩

end Call

/-- What a thread gets: every call is defined and returns what it should, and the ids are
different from each other up to the largest one. -/
structure Generates (randoms : List RandomBytes) (ids : List Bytes) : Prop where
  follows : AtEach Follows (randoms.zip ids)
  nodup : ∀ n, lastMsgId ∉ (ids.take n).dropLast → (ids.take n).Nodup

theorem pairwise_of_follows {calls : List (RandomBytes × Bytes)} (h : AtEach Follows calls)
    (hlast : lastMsgId ∉ (calls.map Prod.snd).dropLast) :
    (calls.map Prod.snd).Pairwise fun id id' => decimalValue id < decimalValue id' := by
  rw [List.pairwise_map]
  refine AtEach.pairwise (fun _ _ _ => Nat.lt_trans) fun i hi prev hprev => ?_
  have hmem : prev.2 ∈ (calls.map Prod.snd).dropLast := by
    rw [List.dropLast_eq_take, List.length_map, ← List.map_take]
    refine List.mem_map_of_mem (List.mem_of_mem_take (i := i) ?_)
    rw [List.take_take, Nat.min_eq_left (by omega)]
    exact List.mem_of_getLast? hprev
  have hfollows := (h i hi).2
  rw [Option.mem_def] at hprev
  simp only [hprev] at hfollows
  rw [if_neg fun heq : prev.2 = lastMsgId => hlast (heq ▸ hmem)] at hfollows
  omega

/-- A thread gets what it should iff in each call an id is drawn, or the carry stops at the
second digit. -/
theorem generates_iff_continues (randoms : List RandomBytes) :
    (∃ s ids, machine.run {} randoms = some (s, ids) ∧ Generates randoms ids) ↔
      machine.Meets Continues {} randoms := by
  rw [← Machine.exists_run_iff_meets (I := Keeps) (N := Follows)
    (fun s calls random h => continues_iff h)
    (fun s calls random s' id h hok hcall => h.genMsgID hok hcall) (Or.inl ⟨rfl, rfl⟩)]
  refine exists₂_congr fun s ids => and_congr_right fun hrun => ?_
  refine ⟨fun h => h.follows, fun hfollows => ⟨hfollows, fun n hlast => ?_⟩⟩
  have hids : ((randoms.zip ids).take n).map Prod.snd = ids.take n := by
    rw [List.map_take, List.map_snd_zip (Machine.length_run hrun).le]
  have hpairwise := pairwise_of_follows (hfollows.take n) (hids ▸ hlast)
  rw [hids] at hpairwise
  exact hpairwise.imp fun hlt heq => absurd (heq ▸ hlt) (lt_irrefl _)

/-- Twenty random bytes of which the first one is `0` and the others are all `b`. -/
def randomBytes (b : UInt8) : RandomBytes := ⟨0 :: List.replicate 19 b, rfl⟩

/-- The second id of a thread whose first one is `05555555555555555555`. -/
theorem not_generates_fives :
    ¬ ∃ s ids, machine.run {} [randomBytes 5, randomBytes 5] = some (s, ids) ∧
      Generates [randomBytes 5, randomBytes 5] ids := by
  rintro ⟨s, ids, hrun, hids⟩
  have hids' : (machine.run {} [randomBytes 5, randomBytes 5]).map Prod.snd =
      some [ascii "05555555555555555555", ascii "0555555555555555555H"] := by decide
  rw [hrun] at hids'
  cases Option.some.inj hids'
  have hdigits := (hids.follows 1 (by decide)).1.2
  exact absurd (hdigits 72 (by decide)) (by decide)

end MsgIDUtil

end Rocket
