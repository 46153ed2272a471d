import Rocket.Common.Util
import Rocket.Foundation.Decimal

/-!
# IPNetAddr

An address is made of a text and a port, of one text with a colon between the two, or of the
`sockaddr_in` of a peer. In the text the port is read by `atoi`, which stops at the first
byte that is no digit, and is cut to 16 bits before it is tested. So more texts are taken for
an address than should be.

`inet_addr` is a parameter. It does not accept the empty text, but it accepts any text behind
white space, also one with colons. So the address may be longer than up to the first colon,
where the text is cut.
-/

namespace Rocket

open Foundation

/-- `':'` -/
def colon : UInt8 := UInt8.ofNat ':'.toNat

/-- `c_str()`: what the functions of C read of a string. -/
def cStr (s : Bytes) : Bytes := s.takeWhile (· ≠ 0)

/-- `isspace` -/
def isSpace (c : UInt8) : Bool := c = 32 ∨ 9 ≤ c ∧ c ≤ 13

/-- `strtol(text, nullptr, 10)`: white space, a sign, and as many digits as there are. The
result is kept in the range of `long`. -/
def strtol (text : Bytes) : ℤ :=
  let text := text.dropWhile isSpace
  let signed := text.head? = some (UInt8.ofNat '-'.toNat) ∨
    text.head? = some (UInt8.ofNat '+'.toNat)
  let digits := (if signed then text.tail else text).takeWhile (IsDigit ·)
  if text.head? = some (UInt8.ofNat '-'.toNat) then max (-2 ^ 63) (-decimalValue digits)
  else min (2 ^ 63 - 1) (decimalValue digits)

/-- `std::atoi`, which is `strtol` cut to an `int`. -/
def atoi (text : Bytes) : Int32 := Int32.ofInt (strtol text)

/-- `htons`: the two bytes of the number in network order. -/
def htons (port : UInt16) : UInt8 × UInt8 :=
  (UInt8.ofNat (port.toNat / 256), UInt8.ofNat (port.toNat % 256))

/-- `ntohs` -/
def ntohs (bytes : UInt8 × UInt8) : UInt16 :=
  UInt16.ofNat (bytes.1.toNat * 256 + bytes.2.toNat)

theorem ntohs_htons (port : UInt16) : ntohs (htons port) = port := by
  have hlt := port.toNat_lt
  rw [← UInt16.toNat_inj]
  simp only [ntohs, htons, UInt8.toNat_ofNat', UInt16.toNat_ofNat']
  omega

/-- `AF_INET` -/
def afInet : UInt16 := 2

/-- `INADDR_NONE` -/
def inaddrNone : UInt32 := 0xffffffff

/-- `sockaddr_in` -/
structure SockAddrIn where
  sinFamily : UInt16
  sinAddr : UInt32
  sinPort : UInt8 × UInt8
  deriving DecidableEq, Repr

/-- `IPNetAddr`. Its `m_addr` has no value until it is set. -/
structure IPNetAddr where
  ip : Bytes := []
  port : UInt16 := 0
  addr : Option SockAddrIn := none
  deriving DecidableEq, Repr

namespace IPNetAddr

section Model

variable (inetAddr : Bytes → UInt32)

/-- `IPNetAddr::IPNetAddr(const std::string&, uint16_t)` -/
def ofPort (ip : Bytes) (port : UInt16) : IPNetAddr where
  ip := ip
  port := port
  addr := some { sinFamily := afInet, sinAddr := inetAddr (cStr ip), sinPort := htons port }

/-- The number that `atoi` reads, as it is stored in `m_port`. -/
def readPort (text : Bytes) : UInt16 := UInt16.ofInt (atoi (cStr text)).toInt

/-- `IPNetAddr::IPNetAddr(const std::string&)` -/
def ofString (addr : Bytes) : IPNetAddr :=
  match addr.findIdx? (· = colon) with
  | none => {}
  | some i =>
      let ip := addr.take i
      let port := readPort ((addr.drop (i + 1)).take (addr.length - i - 1))
      { ip := ip
        port := port
        addr := some { sinFamily := afInet, sinAddr := inetAddr (cStr ip), sinPort := htons port } }

/-- `IPNetAddr::IPNetAddr(sockaddr_in)`, with the text that `inet_ntoa` gives. -/
def ofSockAddr (text : Bytes) (addr : SockAddrIn) : IPNetAddr where
  ip := text
  port := ntohs addr.sinPort
  addr := some addr

/-- `IPNetAddr::toString` -/
def toString (a : IPNetAddr) : Bytes := a.ip ++ [colon] ++ decimalText a.port.toNat

/-- `IPNetAddr::checkValid` -/
def checkValid (a : IPNetAddr) : Bool :=
  if a.ip = [] then false
  else if a.port.toNat ≤ 0 ∨ 65535 < a.port.toNat then false
  else if inetAddr (cStr a.ip) = inaddrNone then false
  else true

/-- The objects that the constructors make. `inet_ntoa` gives a text that `inet_addr` reads
back. -/
inductive Made : IPNetAddr → Prop
  | ofPort (ip : Bytes) (port : UInt16) : Made (.ofPort inetAddr ip port)
  | ofString (addr : Bytes) : Made (.ofString inetAddr addr)
  | ofSockAddr (text : Bytes) (addr : SockAddrIn) (hnul : 0 ∉ text)
      (htext : inetAddr text = addr.sinAddr) : Made (.ofSockAddr text addr)

end Model

section Address

variable {inetAddr : Bytes → UInt32}

/-- A text that `inet_addr` accepts. -/
def IsAddress (inetAddr : Bytes → UInt32) (text : Bytes) : Prop :=
  0 ∉ text ∧ inetAddr text ≠ inaddrNone

/-- A decimal number from 1 to 65535. -/
def IsPort (text : Bytes) : Prop :=
  text ≠ [] ∧ (∀ c ∈ text, IsDigit c) ∧ 1 ≤ decimalValue text ∧ decimalValue text ≤ 65535

/-- The address and the port that `m_addr` holds. -/
def denotes (a : IPNetAddr) : Option (UInt32 × ℕ) :=
  a.addr.map fun addr => (addr.sinAddr, (ntohs addr.sinPort).toNat)

/-- What is valid is the text of an address and of a port, and has become these; and each
such text is valid. -/
structure Faithful (inetAddr : Bytes → UInt32) (s : Bytes) : Prop where
  sound : (ofString inetAddr s).checkValid inetAddr = true →
    ∃ ip port, s = ip ++ colon :: port ∧ IsAddress inetAddr ip ∧ IsPort port ∧
      (ofString inetAddr s).denotes = some (inetAddr ip, decimalValue port)
  complete : ∀ ip port, s = ip ++ colon :: port → IsAddress inetAddr ip → IsPort port →
    (ofString inetAddr s).checkValid inetAddr = true

/-- A text that is split into `ip` and `rest` at its first colon, and into `ip'` and `port` at its
last one. If the latter are an address and a port, what is read at the first colon is the same
address and port; otherwise the address before the first colon is not accepted, or the number
behind it is a multiple of 65536. -/
structure SplitsWell (inetAddr : Bytes → UInt32) (ip rest ip' port : Bytes) : Prop where
  same : IsAddress inetAddr ip' → IsPort port →
    inetAddr ip = inetAddr ip' ∧ readPort rest = readPort port
  refused : ¬ (IsAddress inetAddr ip' ∧ IsPort port) →
    inetAddr (cStr ip) = inaddrNone ∨ readPort rest = 0

/-- Reading the text at its first colon gives what stands around its last one. -/
def ReadsWell (inetAddr : Bytes → UInt32) (s : Bytes) : Prop :=
  ∀ ip rest ip' port, s = ip ++ colon :: rest → colon ∉ ip → s = ip' ++ colon :: port →
    colon ∉ port → SplitsWell inetAddr ip rest ip' port

theorem ofString_append {ip : Bytes} (h : colon ∉ ip) (port : Bytes) :
    ofString inetAddr (ip ++ colon :: port) = ofPort inetAddr ip (readPort port) := by
  rw [ofString, findIdx?_append_cons h]
  simp [ofPort]

theorem ofString_of_notMem {s : Bytes} (h : colon ∉ s) : ofString inetAddr s = {} := by
  have hnone : s.findIdx? (· = colon) = none :=
    List.findIdx?_eq_none_iff.2 fun c hc => decide_eq_false (ne_of_mem_of_not_mem hc h)
  rw [ofString, hnone]

@[simp] theorem denotes_ofPort (ip : Bytes) (port : UInt16) :
    (ofPort inetAddr ip port).denotes = some (inetAddr (cStr ip), port.toNat) := by
  simp [denotes, ofPort, ntohs_htons]

/-- The test of the port only leaves out 0, since `m_port` has 16 bits. -/
theorem checkValid_ofPort (hnil : inetAddr [] = inaddrNone) (ip : Bytes) (port : UInt16) :
    (ofPort inetAddr ip port).checkValid inetAddr = true ↔
      inetAddr (cStr ip) ≠ inaddrNone ∧ port ≠ 0 := by
  have hport : port.toNat ≤ 0 ∨ 65535 < port.toNat ↔ port = 0 := by
    have hlt := port.toNat_lt
    rw [← UInt16.toNat_inj, UInt16.toNat_zero]
    omega
  have hip : ip = [] → inetAddr (cStr ip) = inaddrNone := by
    rintro rfl
    exact hnil
  simp only [checkValid, ofPort, hport]
  split_ifs with hempty hzero hnone
  · simp [hip hempty]
  · simp [hzero]
  · simp [hnone]
  · simp [hzero, hnone]

theorem cStr_eq_self {s : Bytes} (h : 0 ∉ s) : cStr s = s := takeWhile_eq_self h

theorem head_not_space {c : UInt8} (h : IsDigit c) : isSpace c = false := by
  have hc := h.toNat
  simp only [isSpace, decide_eq_false_iff_not, ← UInt8.toNat_inj, UInt8.le_iff_toNat_le]
  simp
  omega

theorem strtol_eq {text : Bytes} (hdigits : ∀ c ∈ text, IsDigit c)
    (hlt : decimalValue text < 2 ^ 63) : strtol text = decimalValue text := by
  have hspace : text.dropWhile isSpace = text := by
    cases text with
    | nil => rfl
    | cons c text =>
        have hc := head_not_space (hdigits c List.mem_cons_self)
        exact List.dropWhile_cons_of_neg (Bool.eq_false_iff.1 hc)
  have hsign (c : UInt8) (hc : ¬ IsDigit c) : text.head? ≠ some c := fun h =>
    hc (hdigits c (List.mem_of_mem_head? h))
  have hall : text.takeWhile (IsDigit ·) = text :=
    List.takeWhile_eq_self_iff.2 fun c hc => decide_eq_true (hdigits c hc)
  have hminus := hsign (UInt8.ofNat '-'.toNat) (by decide)
  have hplus := hsign (UInt8.ofNat '+'.toNat) (by decide)
  rw [strtol, hspace, if_neg hminus, if_neg (not_or.2 ⟨hminus, hplus⟩), hall]
  exact min_eq_right (by omega)

theorem IsPort.colon_notMem {port : Bytes} (h : IsPort port) : colon ∉ port := fun hmem =>
  absurd (h.2.1 colon hmem) (by decide)

theorem IsPort.toNat_readPort {port : Bytes} (h : IsPort port) :
    (readPort port).toNat = decimalValue port := by
  obtain ⟨-, hdigits, hlo, hhi⟩ := h
  have hnul : 0 ∉ port := fun hmem => absurd (hdigits 0 hmem) (by decide)
  have hint : (atoi (cStr port)).toInt = decimalValue port := by
    rw [cStr_eq_self hnul, atoi, strtol_eq hdigits (by omega)]
    exact Int32.toInt_ofInt_of_le (by omega) (by omega)
  rw [readPort, hint, UInt16.ofInt, UInt16.toNat_ofNat']
  omega

theorem IsPort.readPort_ne_zero {port : Bytes} (h : IsPort port) : readPort port ≠ 0 := by
  intro hzero
  have hread := h.toNat_readPort
  have hpos := h.2.2.1
  rw [hzero, UInt16.toNat_zero] at hread
  omega

theorem cStr_eq_of_append {ip rest ip' port : Bytes} (hcolon : colon ∉ ip)
    (heq : ip ++ colon :: rest = ip' ++ colon :: port) (hnul : 0 ∉ ip') : cStr ip = ip := by
  refine cStr_eq_self fun hmem => hnul ?_
  rcases List.append_eq_append_iff.1 heq with ⟨between, rfl, -⟩ | ⟨between, rfl, hbetween⟩
  · exact List.mem_append_left _ hmem
  · cases between with
    | nil => rwa [List.append_nil] at hmem
    | cons c between =>
        cases hbetween
        exact absurd (List.mem_append_right ip' List.mem_cons_self) hcolon

theorem exists_last_colon {s : Bytes} (h : colon ∈ s) :
    ∃ ip port, s = ip ++ colon :: port ∧ colon ∉ port := by
  obtain ⟨port, ip, heq, hport⟩ := List.eq_append_cons_of_mem (List.mem_reverse.2 h)
  refine ⟨ip.reverse, port.reverse, List.reverse_inj.1 ?_, by simpa using hport⟩
  simpa using heq

theorem faithful_iff_readsWell (hnil : inetAddr [] = inaddrNone) (s : Bytes) :
    Faithful inetAddr s ↔ ReadsWell inetAddr s := by
  constructor
  · rintro h ip rest ip' port rfl hcolon heq hport
    have hunique {ip₁ port₁ : Bytes} (heq₁ : ip ++ colon :: rest = ip₁ ++ colon :: port₁)
        (hport₁ : IsPort port₁) : ip₁ = ip' ∧ port₁ = port :=
      append_cons_inj_right hport₁.colon_notMem hport (heq₁.symm.trans heq)
    refine ⟨fun hip' hport' => ?_, fun hnot => ?_⟩
    · obtain ⟨ip₁, port₁, heq₁, -, hport₁, hdenotes⟩ :=
        h.sound (h.complete ip' port heq hip' hport')
      obtain ⟨rfl, rfl⟩ := hunique heq₁ hport₁
      rw [ofString_append hcolon, denotes_ofPort, cStr_eq_of_append hcolon heq hip'.1] at hdenotes
      obtain ⟨haddr, hvalue⟩ := Prod.mk.inj (Option.some.inj hdenotes)
      exact ⟨haddr, UInt16.toNat_inj.1 (hvalue.trans hport'.toNat_readPort.symm)⟩
    · by_contra! hvalid
      rw [← checkValid_ofPort hnil, ← ofString_append hcolon] at hvalid
      obtain ⟨ip₁, port₁, heq₁, hip₁, hport₁, -⟩ := h.sound hvalid
      obtain ⟨rfl, rfl⟩ := hunique heq₁ hport₁
      exact hnot ⟨hip₁, hport₁⟩
  · intro h
    refine ⟨fun hvalid => ?_, ?_⟩
    · by_cases hmem : colon ∈ s
      · obtain ⟨ip, rest, rfl, hcolon⟩ := List.eq_append_cons_of_mem hmem
        obtain ⟨ip', port, heq, hport⟩ := exists_last_colon hmem
        obtain ⟨hsame, hrefused⟩ := h ip rest ip' port rfl hcolon heq hport
        rw [ofString_append hcolon] at hvalid ⊢
        rw [checkValid_ofPort hnil] at hvalid
        obtain ⟨hip', hport'⟩ : IsAddress inetAddr ip' ∧ IsPort port := by
          by_contra hnot
          rcases hrefused hnot with hnone | hzero
          · exact hvalid.1 hnone
          · exact hvalid.2 hzero
        obtain ⟨haddr, hread⟩ := hsame hip' hport'
        refine ⟨ip', port, heq, hip', hport', ?_⟩
        rw [denotes_ofPort, cStr_eq_of_append hcolon heq hip'.1, haddr, hread,
          hport'.toNat_readPort]
      · rw [ofString_of_notMem hmem] at hvalid
        exact absurd hvalid Bool.false_ne_true
    · rintro ip' port rfl hip' hport'
      have hmem : colon ∈ ip' ++ colon :: port := List.mem_append_right _ List.mem_cons_self
      obtain ⟨ip, rest, heq, hcolon⟩ := List.eq_append_cons_of_mem hmem
      obtain ⟨haddr, hread⟩ :=
        (h ip rest ip' port heq hcolon rfl hport'.colon_notMem).same hip' hport'
      rw [heq, ofString_append hcolon, checkValid_ofPort hnil,
        cStr_eq_of_append hcolon heq.symm hip'.1, haddr, hread]
      exact ⟨hip'.2, hport'.readPort_ne_zero⟩

def RoundTrips (inetAddr : Bytes → UInt32) (a : IPNetAddr) : Prop :=
  (ofString inetAddr a.toString).denotes = a.denotes

/-- The text of the address has no colon, or else the address and the port are what is read
before the colon and behind it. -/
def WritesWell (inetAddr : Bytes → UInt32) (a : IPNetAddr) : Prop :=
  ∀ ip rest, a.ip = ip ++ colon :: rest → colon ∉ ip →
    inetAddr (cStr ip) = inetAddr (cStr a.ip) ∧
      readPort (rest ++ colon :: decimalText a.port.toNat) = a.port

theorem isPort_decimalText {port : UInt16} (h : port ≠ 0) : IsPort (decimalText port.toNat) := by
  have hlt := port.toNat_lt
  have hpos : port.toNat ≠ 0 := fun hzero => h (UInt16.toNat_inj.1 hzero)
  refine ⟨decimalText_ne_nil _, fun c => isDigit_of_mem_decimalText, ?_, ?_⟩ <;>
  · rw [decimalValue_decimalText]
    omega

theorem readPort_decimalText {port : UInt16} (h : port ≠ 0) :
    readPort (decimalText port.toNat) = port :=
  UInt16.toNat_inj.1 ((isPort_decimalText h).toNat_readPort.trans (decimalValue_decimalText _))

theorem denotes_of_made (hnil : inetAddr [] = inaddrNone) {a : IPNetAddr} (h : Made inetAddr a)
    (hvalid : a.checkValid inetAddr = true) :
    a.denotes = some (inetAddr (cStr a.ip), a.port.toNat) ∧ a.port ≠ 0 := by
  rw [show a.checkValid inetAddr = (ofPort inetAddr a.ip a.port).checkValid inetAddr from rfl,
    checkValid_ofPort hnil] at hvalid
  refine ⟨?_, hvalid.2⟩
  cases h with
  | ofPort ip port => exact denotes_ofPort ip port
  | ofString addr =>
      by_cases hmem : colon ∈ addr
      · obtain ⟨ip, port, rfl, hcolon⟩ := List.eq_append_cons_of_mem hmem
        rw [ofString_append hcolon]
        exact denotes_ofPort ip _
      · rw [ofString_of_notMem hmem] at hvalid
        exact absurd rfl hvalid.2
  | ofSockAddr text addr hnul htext =>
      simp [denotes, ofSockAddr, cStr_eq_self hnul, htext]

theorem roundTrips_iff_writesWell (hnil : inetAddr [] = inaddrNone) {a : IPNetAddr}
    (h : Made inetAddr a) (hvalid : a.checkValid inetAddr = true) :
    RoundTrips inetAddr a ↔ WritesWell inetAddr a := by
  obtain ⟨hdenotes, hport⟩ := denotes_of_made hnil h hvalid
  have htext : a.toString = a.ip ++ colon :: decimalText a.port.toNat :=
    List.append_assoc ..
  rw [RoundTrips, hdenotes, htext]
  by_cases hmem : colon ∈ a.ip
  · obtain ⟨ip, rest, hip, hcolon⟩ := List.eq_append_cons_of_mem hmem
    have hwrites : WritesWell inetAddr a ↔ inetAddr (cStr ip) = inetAddr (cStr a.ip) ∧
        readPort (rest ++ colon :: decimalText a.port.toNat) = a.port := by
      refine ⟨fun h => h ip rest hip hcolon, fun h ip' rest' hip' hcolon' => ?_⟩
      obtain ⟨rfl, rfl⟩ := append_cons_inj hcolon hcolon' (hip.symm.trans hip')
      exact h
    have hparts : a.ip ++ colon :: decimalText a.port.toNat =
        ip ++ colon :: (rest ++ colon :: decimalText a.port.toNat) := by
      rw [hip, List.append_assoc, List.cons_append]
    rw [hwrites, hparts, ofString_append hcolon, denotes_ofPort, Option.some_inj, Prod.mk_inj,
      UInt16.toNat_inj]
  · rw [ofString_append hmem, denotes_ofPort, readPort_decimalText hport]
    exact iff_of_true rfl fun ip rest hip _ => absurd (hip ▸ by simp) hmem

/-- The texts that are parsed faithfully, and the valid objects that go to text and back. -/
theorem parses_iff (hnil : inetAddr [] = inaddrNone) :
    (∀ s, Faithful inetAddr s ↔ ReadsWell inetAddr s) ∧
      ∀ a, Made inetAddr a → a.checkValid inetAddr = true →
        (RoundTrips inetAddr a ↔ WritesWell inetAddr a) :=
  ⟨faithful_iff_readsWell hnil, fun _ => roundTrips_iff_writesWell hnil⟩

end Address

/-- What `inet_addr` gives for the texts below: it looks at them up to the first white space. -/
def loopback (text : Bytes) : UInt32 :=
  if text.takeWhile (!isSpace ·) = ascii "127.0.0.1" then 0x0100007f else inaddrNone

/-- The address of the server that the tests call. -/
theorem parses_iff_loopback : Faithful loopback (ascii "127.0.0.1:12345") ∧
    RoundTrips loopback (ofPort loopback (ascii "127.0.0.1") 12345) := by
  obtain ⟨hfaithful, htrips⟩ := @parses_iff loopback (by decide)
  constructor
  · refine (hfaithful _).2 fun ip rest ip' port heq hcolon heq' hport => ?_
    have heq₁ : ascii "127.0.0.1" ++ colon :: ascii "12345" = ip ++ colon :: rest := heq
    have heq₂ : ascii "127.0.0.1" ++ colon :: ascii "12345" = ip' ++ colon :: port := heq'
    obtain ⟨rfl, rfl⟩ := append_cons_inj (by decide) hcolon heq₁
    obtain ⟨rfl, rfl⟩ := append_cons_inj_right (by decide) hport heq₂
    refine ⟨fun _ _ => ⟨rfl, rfl⟩, fun hnot => absurd ?_ hnot⟩
    exact ⟨⟨by decide, by decide⟩, by decide, by decide +kernel, by decide, by decide⟩
  · refine (htrips _ (.ofPort _ _) (by decide)).2 fun ip rest heq _ => ?_
    have hmem : colon ∈ ip ++ colon :: rest := List.mem_append_right _ List.mem_cons_self
    exact absurd (heq ▸ hmem) (by decide)

/-- A number of 17 bits is taken for the port 80, and so is a number with a tail. A text whose
address goes on behind white space is refused. -/
theorem not_faithful_loopback : ¬ Faithful loopback (ascii "127.0.0.1:65616") ∧
    ¬ Faithful loopback (ascii "127.0.0.1:80abc") ∧
    ¬ Faithful loopback (ascii "127.0.0.1 :0:80") := by
  refine ⟨fun h => ?_, fun h => ?_, fun h => ?_⟩
  · obtain ⟨ip, port, heq, -, hport, -⟩ := h.sound (by decide +kernel)
    have heq' : ascii "127.0.0.1" ++ colon :: ascii "65616" = ip ++ colon :: port := heq
    obtain ⟨-, rfl⟩ := append_cons_inj_right (by decide) hport.colon_notMem heq'
    exact absurd hport.2.2.2 (by decide)
  · obtain ⟨ip, port, heq, -, hport, -⟩ := h.sound (by decide +kernel)
    have heq' : ascii "127.0.0.1" ++ colon :: ascii "80abc" = ip ++ colon :: port := heq
    obtain ⟨-, rfl⟩ := append_cons_inj_right (by decide) hport.colon_notMem heq'
    exact absurd (hport.2.1 97 (by decide)) (by decide)
  · have haddr : IsAddress loopback (ascii "127.0.0.1 :0") := ⟨by decide, by decide⟩
    have hport : IsPort (ascii "80") := ⟨by decide, by decide +kernel, by decide, by decide⟩
    have hvalid := h.complete (ascii "127.0.0.1 :0") (ascii "80") rfl haddr hport
    exact absurd hvalid (by decide +kernel)

end IPNetAddr

end Rocket
