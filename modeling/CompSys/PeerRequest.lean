import CompSys.CString
import CompSys.PeerClient
import CompSys.PeerHandle
import Mathlib.Data.Bool.AllAny

/-!
# Requests of the two peers of A4

`send_message` of `peer.c` copies a struct and the body of the request to its buffer;
`assemble_message` of `peer.py` joins the same fields. What either sends is the same and is
understood by `parse_message`.
-/
namespace CompSys.PeerClient

open Peer BigEndian CString

def IP_LEN : ℕ := 16
def REQUEST_HEADER_LEN : ℕ := 28

/-! ## The standard library of C -/

def strlen (s : Bytes) : ℕ := (cString s).length

/-- `strncpy` fills an array of `n` characters. -/
def strncpy (s : Bytes) (n : ℕ) : Bytes := ((cString s).take n).rightpad n 0

/-- Out of the bounds of either side it is undefined. -/
def memcpy (memory : Bytes) (start : ℕ) (data : Bytes) (n : ℕ) : Option Bytes :=
  if start + n ≤ memory.length ∧ n ≤ data.length then
    some (memory.take start ++ data.take n ++ memory.drop (start + n))
  else none

def isspace (b : UInt8) : Bool := b = 32 ∨ 9 ≤ b ∧ b ≤ 13

/-- White space, a sign and digits. A number that is no `int` is undefined. -/
def atoi (s : Bytes) : Option Int32 :=
  let n : ℤ := match (cString s).dropWhile isspace with
    | 45 :: s => -digits s
    | 43 :: s => digits s
    | s => digits s
  if -2 ^ 31 ≤ n ∧ n < 2 ^ 31 then some (Int32.ofInt n) else none

/-! ## The request of the C peer -/

structure RequestHeader where
  ip : Bytes
  port : UInt32
  command : UInt32
  length : UInt32
  deriving DecidableEq, Repr

/-- The struct in memory. -/
def RequestHeader.bytes (order : ByteOrder) (header : RequestHeader) : Bytes :=
  header.ip ++ order.stored header.port ++ order.stored header.command ++
    order.stored header.length

structure PeerAddress where
  ip : Bytes
  port : Bytes
  deriving DecidableEq, Repr

/-- What `send_message` writes to the connection, with the buffer as it finds it. -/
def sendRequest (order : ByteOrder) (myAddress : PeerAddress) (command : Int32)
    (requestBody msgBuf : Bytes) : Option Bytes := do
  let port ← atoi myAddress.port
  let requestHeader : RequestHeader := {
    ip := strncpy myAddress.ip IP_LEN
    port := order.htonl port.toUInt32
    command := order.htonl command.toUInt32
    length := order.htonl (UInt32.ofNat (strlen requestBody)) }
  let msgBuf ← memcpy msgBuf 0 (requestHeader.bytes order) REQUEST_HEADER_LEN
  let msgBuf ← memcpy msgBuf REQUEST_HEADER_LEN requestBody (strlen requestBody)
  return msgBuf.take (REQUEST_HEADER_LEN + strlen requestBody)

/-! ## The two copies into the buffer -/

theorem length_stored (order : ByteOrder) (x : UInt32) : (order.stored x).length = 4 := by
  cases order <;> rfl

theorem length_strncpy (s : Bytes) (n : ℕ) : (strncpy s n).length = n := by
  rw [strncpy, List.length_rightpad, List.length_take]
  omega

/-- What stands at the front of the buffer when a header and a body are in it. -/
theorem memcpy_twice {msgBuf header body : Bytes} {k n : ℕ} (hheader : header.length = k)
    (hbody : n ≤ body.length) (hfits : k + n ≤ msgBuf.length) :
    ((memcpy msgBuf 0 header k).bind fun msgBuf => (memcpy msgBuf k body n).bind fun msgBuf =>
      some (msgBuf.take (k + n))) = some (header ++ body.take n) := by
  have hfirst : memcpy msgBuf 0 header k = some (header ++ msgBuf.drop k) := by
    rw [memcpy, if_pos ⟨by omega, hheader.ge⟩, List.take_zero, List.nil_append, Nat.zero_add,
      List.take_of_length_le hheader.le]
  have hlength : (header ++ msgBuf.drop k).length = msgBuf.length := by
    rw [List.length_append, List.length_drop, hheader]
    omega
  have hsecond : memcpy (header ++ msgBuf.drop k) k body n =
      some (header ++ body.take n ++ (header ++ msgBuf.drop k).drop (k + n)) := by
    rw [memcpy, if_pos ⟨by omega, hbody⟩, List.take_left' hheader]
  have htake : (header ++ body.take n).length = k + n := by
    rw [List.length_append, List.length_take, hheader]
    omega
  rw [hfirst, Option.bind_some, hsecond, Option.bind_some, List.take_left' htake]

theorem sendRequest_eq (order : ByteOrder) {myAddress : PeerAddress} {port : Int32}
    (command : Int32) {body : Bytes} (after : Bytes) {msgBuf : Bytes}
    (hport : atoi myAddress.port = some port) (hbody : 0 ∉ body)
    (hfits : REQUEST_HEADER_LEN + body.length ≤ msgBuf.length) :
    sendRequest order myAddress command (body ++ 0 :: after) msgBuf =
      some (strncpy myAddress.ip IP_LEN ++ encode 4 port.toUInt32.toNat ++
        encode 4 command.toUInt32.toNat ++ encode 4 (UInt32.ofNat body.length).toNat ++ body) := by
  have hstrlen : strlen (body ++ 0 :: after) = body.length := by rw [strlen, cString_plain hbody]
  have hheader : ∀ header : RequestHeader, header.ip = strncpy myAddress.ip IP_LEN →
      (header.bytes order).length = REQUEST_HEADER_LEN := by
    intro header hip
    simp only [RequestHeader.bytes, List.length_append, length_stored, hip, length_strncpy]
    rfl
  rw [sendRequest, hport, hstrlen]
  have hroom : body.length ≤ (body ++ 0 :: after).length := by simp
  refine (memcpy_twice (hheader _ rfl) hroom hfits).trans ?_
  rw [RequestHeader.bytes, stored_htonl, stored_htonl, stored_htonl, List.take_left]

/-! ## The request of the Python peer -/

section Ip

variable {ip : String} (hascii : ∀ c ∈ ip.toList, c.toNat < 128) (hshort : ip.toList.length ≤ 15)
include hascii hshort

/-- The field of a short ip is filled up with NULs. -/
theorem padIp_short : padIp ip.toList =
    PythonText.encode ip ++ List.replicate (16 - (PythonText.encode ip).length) 0 := by
  have hnul : ∀ n, (List.replicate n (Char.ofNat 0)).flatMap String.utf8EncodeChar =
      List.replicate n 0 := by
    intro n
    rw [List.flatMap_replicate]
    exact List.flatten_replicate_singleton
  rw [padIp_eq_encode, PythonText.length_encode_ascii hascii, PythonText.encode,
    String.toList_ofList, List.rightpad, List.flatMap_append, hnul]
  have hip : ip.toList.take LEN_IP = ip.toList :=
    List.take_of_length_le (hshort.trans (by decide))
  rw [hip]
  rfl

theorem strncpy_padIp {myIp : Bytes} (hmyIp : cString myIp = PythonText.encode ip) :
    strncpy myIp IP_LEN = padIp ip.toList := by
  have hlength : (PythonText.encode ip).length ≤ IP_LEN := by
    rw [PythonText.length_encode_ascii hascii]
    exact hshort.trans (by decide)
  rw [strncpy, hmyIp, List.take_of_length_le hlength, List.rightpad, padIp_short hascii hshort]
  rfl

end Ip

/-- Both peers put the same bytes on the wire for the same request, and these are understood. -/
theorem request_framing (order : ByteOrder) (myAddress : PeerAddress) (ip : String)
    (port command : ℕ) (body after msgBuf : Bytes)
    (hip : ∀ c ∈ ip.toList, c.toNat < 128 ∧ c ≠ Char.ofNat 0) (hshort : ip.toList.length ≤ 15)
    (hport : port < 65536) (hcommand : command < 2 ^ 31) (hbody : 0 ∉ body)
    (hfits : 28 + body.length ≤ 8196) (hmyIp : cString myAddress.ip = PythonText.encode ip)
    (hmyPort : atoi myAddress.port = some (Int32.ofNat port))
    (hmsgBuf : msgBuf.length = MAX_MSG_LEN) :
    ∃ message,
      sendRequest order myAddress (Int32.ofNat command) (body ++ 0 :: after) msgBuf =
        some message ∧
      assembleMessage ip port command body = .ok message ∧
      parseMessage message = .ok ⟨ip, port, command, body.length, body⟩ := by
  have hascii : ∀ c ∈ ip.toList, c.toNat < 128 := fun c hc => (hip c hc).1
  have hnul : Char.ofNat 0 ∉ ip.toList := fun hmem => (hip _ hmem).2 rfl
  have hfitsBuf : REQUEST_HEADER_LEN + body.length ≤ msgBuf.length := by
    rw [hmsgBuf]
    exact hfits
  have hword : ∀ n < 2 ^ 32, (UInt32.ofNat n).toNat = n :=
    fun n hn => UInt32.toNat_ofNat_of_lt' hn
  refine ⟨_, ?_, assembleMessage_eq ip (by omega) (by omega) (by omega), ?_⟩
  · rw [sendRequest_eq order _ after hmyPort hbody hfitsBuf,
      strncpy_padIp hascii hshort hmyIp, Int32.toUInt32_ofNat', Int32.toUInt32_ofNat',
      hword port (by omega), hword command (by omega), hword body.length (by omega)]
  · rw [parseMessage_joined body (length_padIp_ascii hascii) (by omega) (by omega) (by omega),
      padIp_eq_encode, decodeUtf8_encode]
    have hstrip : stripNul (String.ofList ((ip.toList.take LEN_IP).rightpad LEN_IP
        (Char.ofNat 0))) = ip := by
      rw [List.take_of_length_le (hshort.trans (by decide)), List.rightpad, stripNul_pad hnul,
        String.ofList_toList]
    rw [Except.map, hstrip]

/-- The peer at 10.0.0.2:8080 asks for a.txt. -/
theorem request_framing_example : ∃ message,
    sendRequest .little ⟨[49, 48, 46, 48, 46, 48, 46, 50, 0], [56, 48, 56, 48, 0]⟩ (Int32.ofNat 2)
        ([97, 46, 116, 120, 116] ++ 0 :: []) (List.replicate 8196 7) = some message ∧
      assembleMessage "10.0.0.2" 8080 2 [97, 46, 116, 120, 116] = .ok message ∧
      parseMessage message = .ok ⟨"10.0.0.2", 8080, 2, 5, [97, 46, 116, 120, 116]⟩ :=
  request_framing .little _ "10.0.0.2" 8080 2 [97, 46, 116, 120, 116] [] _
    (List.all_iff_forall_prop.mp rfl) (by decide +kernel) (by decide) (by decide) (by decide)
    (by decide) (by decide +kernel) (by decide) List.length_replicate

end CompSys.PeerClient
