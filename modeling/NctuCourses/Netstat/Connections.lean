import Mathlib.Algebra.Group.Nat.Defs
import Mathlib.Data.List.Basic

namespace NctuCourses.Netstat

/-- The characters of a C string. -/
abbrev Text := List Char

/-- The conversion `%u`. -/
def decimal (n : Nat) : Text := Nat.toDigits 10 n

/-- The conversion `%d`. -/
def decimalInt : Int → Text
  | .ofNat n => decimal n
  | .negSucc n => '-' :: decimal (n + 1)

/-- `snprintf` into a buffer of `size` bytes. -/
def snprintf (size : Nat) (s : Text) : Text := s.take (size - 1)

/-- `inet_ntop` into a buffer of `size` bytes that holds `buf`: a text
that is too long is not stored. -/
def inetNtop (text : Text) (size : Nat) (buf : Text) : Text :=
  if text.length + 1 ≤ size then text else buf

/-- `struct in_addr`, the bytes of the address from the lowest. -/
abbrev InAddr := BitVec 32

/-- `struct in6_addr`. -/
abbrev In6Addr := BitVec 128

/-- The text of `inet_ntop(AF_INET, …)`. -/
def inAddrText (a : InAddr) : Text :=
  decimal (a.extractLsb' 0 8).toNat ++ '.' :: decimal (a.extractLsb' 8 8).toNat ++
    '.' :: decimal (a.extractLsb' 16 8).toNat ++ '.' :: decimal (a.extractLsb' 24 8).toNat

/-- `struct connection4` and `struct connection6`, with strings that fit their arrays. -/
structure Connection (A : Type) where
  proto : Text
  localIp : A
  localPort : BitVec 16
  remoteIp : A
  remotePort : BitVec 16
  pid : BitVec 32
  program : Text
  proto_length : proto.length ≤ 4
  program_length : program.length ≤ 255

/-- The buffers `local_ip` and `remote_ip`, which live as long as the loop. -/
structure Buffers where
  localIp : Text
  remoteIp : Text

/-- `local_ip_port` or `remote_ip_port`. -/
def ipPort (ip : Text) (port : BitVec 16) : Text :=
  let text := snprintf 30 (ip ++ ':' :: decimal port.toNat)
  if port = 0 then text.dropLast ++ ['*'] else text

/-- `"%-6s%-35s%-35s%d/%s"`. -/
def row (proto localIpPort remoteIpPort : Text) (pid : BitVec 32) (program : Text) : Text :=
  List.rightpad 6 ' ' proto ++ (List.rightpad 35 ' ' localIpPort ++
    (List.rightpad 35 ' ' remoteIpPort ++
    (decimalInt pid.toInt ++ '/' :: program)))

section Loop

variable {A : Type} (ntop : A → Text) (regexec : Text → Bool)

/-- The loop over the nodes, with the texts of the addresses and the filter. -/
def listConnections : Buffers → List (Connection A) → List Text
  | _, [] => []
  | b, cur :: next =>
    let b := ⟨inetNtop (ntop cur.localIp) 30 b.localIp, inetNtop (ntop cur.remoteIp) 30 b.remoteIp⟩
    let result := snprintf 512
      (row cur.proto (ipPort b.localIp cur.localPort) (ipPort b.remoteIp cur.remotePort)
        cur.pid cur.program)
    if regexec result then result :: listConnections b next else listConnections b next

end Loop

/-- The list of nodes, by `mode & IPV4_FLAG`. -/
inductive Connections where
  | ipv4 (head : List (Connection InAddr))
  | ipv6 (head : List (Connection In6Addr))

/-- `ListConnectionsWithFilter`: the lines printed. `ntop6` is the text of `inet_ntop(AF_INET6, …)`,
and the buffers start with what the stack holds. -/
def listConnectionsWithFilter (ntop6 : In6Addr → Text) (regexec : Text → Bool) (b : Buffers) :
    Connections → List Text
  | .ipv4 head => listConnections inAddrText regexec b head
  | .ipv6 head => listConnections ntop6 regexec b head

/-- An address column: the text, `:` and the port, or `*` for port 0. -/
def column (text : Text) (port : BitVec 16) : Text :=
  text ++ ':' :: if port = 0 then ['*'] else decimal port.toNat

/-- The line that shows a record. -/
def Connection.line {A : Type} (ntop : A → Text) (r : Connection A) : Text :=
  row r.proto (column (ntop r.localIp) r.localPort) (column (ntop r.remoteIp) r.remotePort)
    r.pid r.program

/-- The lines that show the records. -/
def Connections.lines (ntop6 : In6Addr → Text) : Connections → List Text
  | .ipv4 head => head.map (Connection.line inAddrText)
  | .ipv6 head => head.map (Connection.line ntop6)

/-- Address and port fit a buffer of 30 bytes. -/
def FitsPort (text : Text) (port : BitVec 16) : Prop :=
  text.length + 1 + (decimal port.toNat).length ≤ 29

instance (text : Text) (port : BitVec 16) : Decidable (FitsPort text port) := Nat.decLe _ _

def Connection.Fits {A : Type} (ntop : A → Text) (r : Connection A) : Prop :=
  FitsPort (ntop r.localIp) r.localPort ∧ FitsPort (ntop r.remoteIp) r.remotePort

instance {A : Type} (ntop : A → Text) (r : Connection A) : Decidable (r.Fits ntop) :=
  instDecidableAnd

/-- The texts of the IPv6 records fit. -/
def Connections.Fits (ntop6 : In6Addr → Text) : Connections → Prop
  | .ipv4 _ => True
  | .ipv6 head => ∀ r ∈ head, r.Fits ntop6

instance (ntop6 : In6Addr → Text) : (c : Connections) → Decidable (c.Fits ntop6)
  | .ipv4 _ => .isTrue trivial
  | .ipv6 head => inferInstanceAs (Decidable (∀ r ∈ head, r.Fits ntop6))

theorem decimal_length_le {n k : Nat} (hk : 0 < k) (h : n < 10 ^ k) : (decimal n).length ≤ k :=
  (Nat.length_toDigits_le_iff (by decide) hk).mpr h

theorem space_notMem_decimal (n : Nat) : ' ' ∉ decimal n := by
  intro h
  have hdigit := Nat.isDigit_of_mem_toDigits (by decide) (by decide) h
  cases hdigit

theorem decimalInt_length_le (pid : BitVec 32) : (decimalInt pid.toInt).length ≤ 11 := by
  have hlo := pid.le_toInt
  have hhi := pid.toInt_lt
  cases hpid : pid.toInt with
  | ofNat n =>
    rw [hpid, Int.ofNat_eq_natCast] at hhi
    have hn := decimal_length_le (n := n) (k := 10) (by decide) (by omega)
    exact Nat.le_succ_of_le hn
  | negSucc n =>
    rw [hpid] at hlo
    have hn := decimal_length_le (n := n + 1) (k := 10) (by decide) (by omega)
    exact Nat.succ_le_succ hn

section Column

variable {text : Text} {port : BitVec 16}

theorem fitsPort_iff : FitsPort text port ↔ (column text port).length ≤ 29 := by
  by_cases hp : port = 0
  · subst hp
    have h0 : (decimal (0 : BitVec 16).toNat).length = 1 := by decide
    simp only [FitsPort, column, h0, if_true, List.length_append, List.length_cons, List.length_nil]
  · simp only [FitsPort, column, if_neg hp, List.length_append, List.length_cons]
    omega

theorem space_notMem_column (h : ' ' ∉ text) : ' ' ∉ column text port := by
  intro hmem
  rw [column, List.mem_append, List.mem_cons] at hmem
  rcases hmem with hmem | hmem | hmem
  · exact h hmem
  · cases hmem
  · split_ifs at hmem
    · simp at hmem
    · exact space_notMem_decimal _ hmem

theorem ipPort_length_le (ip : Text) (port : BitVec 16) : (ipPort ip port).length ≤ 29 := by
  have htake : (snprintf 30 (ip ++ ':' :: decimal port.toNat)).length ≤ 29 :=
    List.length_take_le 29 _
  have hpos : 0 < (snprintf 30 (ip ++ ':' :: decimal port.toNat)).length := by
    simp only [snprintf, List.length_take, List.length_append, List.length_cons]
    omega
  simp only [ipPort]
  split_ifs
  · rw [List.length_append, List.length_dropLast]
    simp only [List.length_singleton]
    omega
  · exact htake

theorem ipPort_of_fits (h : FitsPort text port) (buf : Text) :
    ipPort (inetNtop text 30 buf) port = column text port := by
  have hstored : inetNtop text 30 buf = text := by
    rw [FitsPort] at h
    exact if_pos (by omega)
  have hwhole : snprintf 30 (text ++ ':' :: decimal port.toNat) = text ++ ':' ::
      decimal port.toNat := by
    rw [FitsPort] at h
    rw [snprintf, List.take_of_length_le]
    rw [List.length_append, List.length_cons]
    omega
  rw [hstored]
  simp only [ipPort, hwhole, column]
  split_ifs with hp
  · subst hp
    rw [List.dropLast_append_of_ne_nil (List.cons_ne_nil _ _), List.append_assoc]
    rfl
  · rfl

end Column

/-- A column of at most 29 characters is followed by blanks, so it is not taken for a longer one. -/
theorem length_le_of_rightpad_eq {l l' t t' : Text} (hl : l.length ≤ 29) (hspace : ' ' ∉ l')
    (h : List.rightpad 35 ' ' l ++ t = List.rightpad 35 ' ' l' ++ t') : l'.length ≤ 29 := by
  by_contra hlong
  have hlt : 29 < l'.length := Nat.lt_of_not_le hlong
  have hat : (List.rightpad 35 ' ' l ++ t)[29]? = some ' ' := by
    rw [List.rightpad, List.append_assoc, List.getElem?_append_right hl,
      List.getElem?_append_left (by rw [List.length_replicate]; omega), List.getElem?_replicate]
    exact if_pos (by omega)
  rw [h, List.rightpad, List.append_assoc, List.getElem?_append_left hlt] at hat
  exact hspace (List.mem_of_getElem? hat)

section Rows

variable {A : Type} {ntop : A → Text} (r : Connection A)

theorem row_length_le {localIpPort remoteIpPort : Text} (hl : localIpPort.length ≤ 29)
    (hr : remoteIpPort.length ≤ 29) :
    (row r.proto localIpPort remoteIpPort r.pid r.program).length ≤ 511 := by
  have hproto := r.proto_length
  have hprogram := r.program_length
  have hpid := decimalInt_length_le r.pid
  simp only [row, List.length_append, List.length_rightpad, List.length_cons]
  omega

/-- The line of a record shows it exactly if its texts fit, whatever the buffers hold. -/
theorem result_eq_line_iff (hntop : ∀ a, ' ' ∉ ntop a) (b : Buffers) :
    snprintf 512 (row r.proto (ipPort (inetNtop (ntop r.localIp) 30 b.localIp) r.localPort)
      (ipPort (inetNtop (ntop r.remoteIp) 30 b.remoteIp) r.remotePort) r.pid r.program) =
        r.line ntop ↔
        r.Fits ntop := by
  have hlocal := ipPort_length_le (inetNtop (ntop r.localIp) 30 b.localIp) r.localPort
  have hremote := ipPort_length_le (inetNtop (ntop r.remoteIp) 30 b.remoteIp) r.remotePort
  rw [snprintf, List.take_of_length_le (row_length_le r hlocal hremote), Connection.line]
  constructor
  · intro h
    have h := List.append_cancel_left h
    have hfits := fitsPort_iff.mpr (length_le_of_rightpad_eq hlocal
      (space_notMem_column (hntop _)) h)
    rw [ipPort_of_fits hfits] at h
    have h := List.append_cancel_left h
    exact ⟨hfits, fitsPort_iff.mpr (length_le_of_rightpad_eq hremote
      (space_notMem_column (hntop _)) h)⟩
  · intro h
    rw [ipPort_of_fits h.1, ipPort_of_fits h.2]

theorem listConnections_eq_iff (hntop : ∀ a, ' ' ∉ ntop a) {regexec : Text → Bool}
    (hall : ∀ l, regexec l = true) (b : Buffers) (head : List (Connection A)) :
    listConnections ntop regexec b head = head.map (Connection.line ntop) ↔
    ∀ r ∈ head, r.Fits ntop := by
  induction head generalizing b with
  | nil => simp [listConnections]
  | cons r next ih =>
    simp only [listConnections, hall, if_true, List.map_cons, List.cons.injEq, List.forall_mem_cons]
    rw [result_eq_line_iff r hntop, ih]

end Rows

theorem byte_decimal_length (b : BitVec 8) : (decimal b.toNat).length ≤ 3 :=
  decimal_length_le (by decide) (by have := b.isLt; omega)

theorem fitsPort_inAddrText (a : InAddr) (port : BitVec 16) : FitsPort (inAddrText a) port := by
  have h0 := byte_decimal_length (a.extractLsb' 0 8)
  have h1 := byte_decimal_length (a.extractLsb' 8 8)
  have h2 := byte_decimal_length (a.extractLsb' 16 8)
  have h3 := byte_decimal_length (a.extractLsb' 24 8)
  have hport : (decimal port.toNat).length ≤ 5 := by
    have hlt := port.isLt
    exact decimal_length_le (by decide) (by omega)
  simp only [FitsPort, inAddrText, List.length_append, List.length_cons]
  omega

theorem space_notMem_inAddrText (a : InAddr) : ' ' ∉ inAddrText a := by
  simp [inAddrText, space_notMem_decimal]

/-- With a filter that matches all lines, every line shows its own record exactly if the texts of
the IPv6 records fit the buffers. -/
theorem listConnectionsWithFilter_shows_iff {ntop6 : In6Addr → Text} (hntop : ∀ a, ' ' ∉ ntop6 a)
    {regexec : Text → Bool} (hall : ∀ l, regexec l = true) (b : Buffers) (c : Connections) :
    listConnectionsWithFilter ntop6 regexec b c = c.lines ntop6 ↔ c.Fits ntop6 := by
  cases c with
  | ipv4 head =>
    refine (listConnections_eq_iff space_notMem_inAddrText hall b head).trans
      (iff_of_true ?_ trivial)
    intro r _
    exact ⟨fitsPort_inAddrText _ _, fitsPort_inAddrText _ _⟩
  | ipv6 head => exact listConnections_eq_iff hntop hall b head

/-- The digits of a group, without leading zeros. -/
def groupText (w : BitVec 16) : Text :=
  let digits := [w.extractLsb' 12 4, w.extractLsb' 8 4, w.extractLsb' 4 4, w.extractLsb' 0 4]
  (if w = 0 then [0] else digits.dropWhile (· = 0)).map fun (d : BitVec 4) => Nat.digitChar d.toNat

/-- The text of an address, with `::` for two or more leading groups of zeros. The dotted form of an
address that starts with just six of them is left out. -/
def in6Text (a : In6Addr) : Text :=
  let groups := (List.range 8).map fun i => a.extractLsb' (16 * (7 - i)) 16
  let shown := groups.dropWhile (· = 0)
  if shown = [] then [':', ':']
  else if shown.length < 7 then ':' :: shown.flatMap fun w => ':' :: groupText w
  else (groups.flatMap fun w => ':' :: groupText w).tail

theorem space_notMem_groupText (w : BitVec 16) : ' ' ∉ groupText w := by
  have hdigit : ∀ d : BitVec 4, Nat.digitChar d.toNat ≠ ' ' := by decide
  intro h
  obtain ⟨d, _, hd⟩ := List.mem_map.mp h
  exact hdigit d hd

theorem space_notMem_in6Text (a : In6Addr) : ' ' ∉ in6Text a := by
  have hgroups : ∀ ws : List (BitVec 16), ' ' ∉ ws.flatMap fun w => ':' :: groupText w := by
    intro ws h
    obtain ⟨w, _, hw⟩ := List.mem_flatMap.mp h
    exact space_notMem_groupText w ((List.mem_cons.mp hw).resolve_left (by decide))
  simp only [in6Text]
  split_ifs
  · decide
  · intro h
    exact hgroups _ ((List.mem_cons.mp h).resolve_left (by decide))
  · intro h
    exact hgroups _ (List.mem_of_mem_tail h)

/-- An `sshd` with a connection from `remoteIp`. -/
def sshd (remoteIp : In6Addr) : Connection In6Addr :=
  ⟨"tcp6".toList, 1, 22, remoteIp, 443, 7, "sshd".toList, by decide, by decide⟩

/-- Two connections from short addresses. -/
theorem listConnectionsWithFilter_shows_short : (∀ a, ' ' ∉ in6Text a) ∧ ∀ b : Buffers,
    listConnectionsWithFilter in6Text (fun _ => true) b (.ipv6 [sshd 1, sshd 0x1C0A80102]) =
      (Connections.ipv6 [sshd 1, sshd 0x1C0A80102]).lines in6Text := by
  refine ⟨space_notMem_in6Text, ?_⟩
  intro b
  exact (listConnectionsWithFilter_shows_iff space_notMem_in6Text (fun _ => rfl) b _).mpr
    (by decide)

/-- An address of 38 characters does not fit the buffer, so its line shows the address of the line
before: the same record gives two different lines. -/
theorem listConnectionsWithFilter_misleads :
    in6Text 0x20010DB8111122223333444455556666 = "2001:db8:1111:2222:3333:4444:5555:6666".toList ∧
    ∀ b : Buffers,
    listConnectionsWithFilter in6Text (fun _ => true) b
      (.ipv6 [sshd 1, sshd 0x20010DB8111122223333444455556666]) =
      ["tcp6  ::1:22                             ::1:443                            7/sshd".toList,
       "tcp6  ::1:22                             ::1:443                            7/sshd".toList] ∧
    listConnectionsWithFilter in6Text (fun _ => true) b
      (.ipv6 [sshd 2, sshd 0x20010DB8111122223333444455556666]) =
      ["tcp6  ::1:22                             ::2:443                            7/sshd".toList,
       "tcp6  ::1:22                             ::2:443                            7/sshd".toList] := by
  refine ⟨by decide, ?_⟩
  intro b
  exact ⟨rfl, rfl⟩

end NctuCourses.Netstat
