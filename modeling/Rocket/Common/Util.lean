import Rocket.Foundation.Word
import Mathlib.Data.List.TakeWhile

/-!
# Byte strings

`std::string`, `char` arrays and `std::vector<char>` are all lists of bytes
here. `util.cpp` reads an integer in network byte order from four of them.
-/

namespace Rocket

open Foundation

/-- A byte string: a `std::string` or the contents of a `std::vector<char>`. -/
abbrev Bytes := List UInt8

/-- The bytes of a string literal of the source, which are all ASCII. -/
def ascii (s : String) : Bytes := s.toList.map fun c => UInt8.ofNat c.toNat

/-- `getInt32FromNetByte`, given the four bytes it copies. -/
def getInt32FromNetByte : Bytes → Int32
  | [a, b, c, d] => bytesWord a b c d
  | _ => 0

/-- Reading an integer gives back what `htonl` has written. -/
theorem getInt32FromNetByte_wordBytes (x : Int32) : getInt32FromNetByte (wordBytes x) = x :=
  bytesWord_wordBytes x

/-- Four bytes are what `htonl` writes for the integer read from them. -/
theorem wordBytes_getInt32FromNetByte :
    ∀ {bytes : Bytes}, bytes.length = 4 → wordBytes (getInt32FromNetByte bytes) = bytes
  | [a, b, c, d], _ => wordBytes_bytesWord a b c d

/-- `find_first_of` with a single character finds the first of its places. -/
theorem findIdx?_append_cons {c : UInt8} {before : Bytes} (h : c ∉ before) (behind : Bytes) :
    (before ++ c :: behind).findIdx? (· = c) = some before.length := by
  have hnone : before.findIdx? (· = c) = none :=
    List.findIdx?_eq_none_iff.2 fun d hd => decide_eq_false (ne_of_mem_of_not_mem hd h)
  rw [List.findIdx?_append, hnone, List.findIdx?_cons]
  simp

theorem append_cons_inj {c : UInt8} {a a' b b' : Bytes} (ha : c ∉ a) (ha' : c ∉ a')
    (h : a ++ c :: b = a' ++ c :: b') : a = a' ∧ b = b' := by
  have hlen := findIdx?_append_cons ha b
  rw [h, findIdx?_append_cons ha' b', Option.some_inj] at hlen
  obtain ⟨heq, hrest⟩ := List.append_inj h hlen.symm
  exact ⟨heq, (List.cons_eq_cons.1 hrest).2⟩

theorem append_cons_inj_right {c : UInt8} {a a' b b' : Bytes} (hb : c ∉ b) (hb' : c ∉ b')
    (h : a ++ c :: b = a' ++ c :: b') : a = a' ∧ b = b' := by
  have hrev := congrArg List.reverse h
  simp only [List.reverse_append, List.reverse_cons, List.append_assoc, List.singleton_append]
    at hrev
  obtain ⟨hb'', ha''⟩ := append_cons_inj (by simpa using hb) (by simpa using hb') hrev
  exact ⟨List.reverse_inj.1 ha'', List.reverse_inj.1 hb''⟩

theorem wordBytes_injective : Function.Injective wordBytes :=
  Function.LeftInverse.injective getInt32FromNetByte_wordBytes

theorem takeWhile_append_zeros (bytes : Bytes) (n : ℕ) :
    (bytes ++ List.replicate n 0).takeWhile (· ≠ 0) = bytes.takeWhile (· ≠ 0) := by
  induction bytes with
  | nil => cases n <;> simp [List.replicate_succ]
  | cons a bytes ih =>
      rw [List.cons_append, List.takeWhile_cons, List.takeWhile_cons, ih]

theorem takeWhile_eq_self {bytes : Bytes} (hnul : 0 ∉ bytes) :
    bytes.takeWhile (· ≠ 0) = bytes :=
  List.takeWhile_eq_self_iff.2 fun _ ha => decide_eq_true (ne_of_mem_of_not_mem ha hnul)

end Rocket
