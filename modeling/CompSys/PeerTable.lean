import CompSys.PeerBlocks
import CompSys.PeerRegister
import CompSys.PeerRequest
import Mathlib.Data.List.Perm.Basic
import Mathlib.Data.Set.List

/-!
# The network table of the C client of A4

What `send_message` makes of the reply to a registration. The entries are stored behind the own
address, each of them one slot further than its record, and a record that looks like the own one
leaves its slot empty.
-/
namespace CompSys.PeerClient

open Peer BigEndian CString

def PORT_LEN : ℕ := 8

/-- The size of a pointer. -/
def POINTER_LEN : ℕ := 8

/-- The size of a record of a reply. -/
def RECORD_LEN : ℕ := 20

/-- What `malloc` and `realloc` hand out for a number of bytes: at least as many that can be used.
They do not fail. -/
structure Allocator where
  usable : ℕ → ℕ
  le_usable : ∀ n, n ≤ usable n

/-- `peer_count` and `network`, with the bytes that it has. A slot that has not been written holds
no pointer. -/
structure NetworkTable where
  peerCount : ℕ
  size : ℕ
  slots : ℕ → Option PeerAddress

/-! ## Storing the records -/

section Source

variable (alloc : Allocator) (myAddress : PeerAddress)

/-- What `main` leaves to the client thread. -/
def mainTable : NetworkTable where
  peerCount := 1
  size := alloc.usable POINTER_LEN
  slots := fun i => if i = 0 then some myAddress else none

/-- What is behind the end of a smaller block is lost. -/
def NetworkTable.realloc (network : NetworkTable) (n : ℕ) : NetworkTable :=
  { network with
    size := alloc.usable n
    slots := fun i => if POINTER_LEN * (i + 1) ≤ n then network.slots i else none }

/-- `network[i] = malloc(sizeof(PeerAddress_t*))` and a copy of a whole address to it. Behind the end
of either block it is undefined. -/
def NetworkTable.store (network : NetworkTable) (i : ℕ) (a : PeerAddress) : Option NetworkTable :=
  if POINTER_LEN * (i + 1) ≤ network.size ∧ IP_LEN + PORT_LEN ≤ alloc.usable POINTER_LEN then
    some { network with slots := Function.update network.slots i (some a) }
  else none

/-- What `%u` prints. -/
def decimal (n : ℕ) : Bytes := PythonText.encode (toString n)

/-- The array keeps what it held behind the NUL. A number that does not fit it is undefined. -/
def sprintf (replyPort : Bytes) (n : ℕ) : Option Bytes :=
  if (decimal n).length < PORT_LEN then
    some (decimal n ++ 0 :: replyPort.drop ((decimal n).length + 1))
  else none

/-- The comparison with the own address. -/
def IsMine (replyIp replyPort : Bytes) : Prop :=
  replyPort.take 4 = myAddress.port.take 4 ∧ cString replyIp = cString myAddress.ip

instance (replyIp replyPort : Bytes) : Decidable (IsMine myAddress replyIp replyPort) :=
  inferInstanceAs (Decidable (_ ∧ _))

/-- The body of the loop over the records. In round `i` it finds `reply_port` with `found i` in it. -/
def noteRecord (found : ℕ → Bytes) (replyBody : Bytes) (network : NetworkTable) (i : ℕ) :
    Option NetworkTable := do
  let replyPortInt := decode (slice replyBody (i * RECORD_LEN + 16) (i * RECORD_LEN + 16 + 4))
  let replyPort ← sprintf (found i) replyPortInt
  let replyIp := slice replyBody (i * RECORD_LEN) (i * RECORD_LEN + 16)
  if IsMine myAddress replyIp replyPort then return network
  network.store alloc (i + 1) ⟨replyIp, replyPort⟩

/-- The section under `network_mutex`. The last loop prints what every slot points to. -/
def noteReply (found : ℕ → Bytes) (replyBody : Bytes) (replyLength : ℕ) (network : NetworkTable) :
    Option NetworkTable := do
  let peerCount := replyLength / RECORD_LEN
  let network := { network with peerCount := peerCount }.realloc alloc (POINTER_LEN * peerCount + 1)
  let network ← (List.range peerCount).foldlM (noteRecord alloc myAddress found replyBody) network
  if ∀ i < peerCount, (network.slots i).isSome then some network else none

/-- The end of `send_message` when nothing has failed, with the header that was read last. -/
def noteNetwork (found : ℕ → Bytes) (last : ReplyHeader) (msgBuf : Bytes) (network : NetworkTable) :
    Option NetworkTable :=
  if MAX_MSG_LEN < last.length then none
  else if last.status = STATUS_OK then
    noteReply alloc myAddress found (msgBuf.take last.length) last.length network
  else some network

/-- `send_message` for a registration, from the reply on, and what is left of the table. -/
def register (sha : Sha256) (found : ℕ → Bytes) (network : NetworkTable) (c : Client) :
    Option NetworkTable × Client :=
  match readHeader c with
  | (first, c) =>
    match receiveBlocks sha COMMAND_REGISTER first c with
    | (some .bufferOverrun, _, c) => (none, c)
    | (some _, _, c) => (some network, c)
    | (none, last, c) => (noteNetwork alloc myAddress found last c.msgBuf network, c)

end Source

section Count

variable {alloc : Allocator} {myAddress : PeerAddress} {found : ℕ → Bytes} {replyBody : Bytes}
variable {network network' : NetworkTable}

/-- Storing leaves the count alone. -/
theorem noteRecord_peerCount {i : ℕ}
    (h : noteRecord alloc myAddress found replyBody network i = some network') :
    network'.peerCount = network.peerCount := by
  obtain ⟨replyPort, -, h⟩ := Option.bind_eq_some_iff.mp h
  simp only at h
  split at h
  case isTrue =>
    cases h
    rfl
  case isFalse =>
    simp only [NetworkTable.store] at h
    split at h
    · cases h
      rfl
    · cases h

theorem foldlM_peerCount (is : List ℕ)
    (h : is.foldlM (noteRecord alloc myAddress found replyBody) network = some network') :
    network'.peerCount = network.peerCount := by
  induction is generalizing network with
  | nil =>
    cases h
    rfl
  | cons i is ih =>
    rw [List.foldlM_cons] at h
    obtain ⟨stored, hround, hrest⟩ := Option.bind_eq_some_iff.mp h
    rw [ih hrest, noteRecord_peerCount hround]

theorem noteReply_peerCount {replyLength : ℕ}
    (h : noteReply alloc myAddress found replyBody replyLength network = some network') :
    network'.peerCount = replyLength / RECORD_LEN := by
  obtain ⟨stored, hloop, hprint⟩ := Option.bind_eq_some_iff.mp h
  split at hprint
  case isTrue =>
    cases hprint
    exact foldlM_peerCount _ hloop
  case isFalse => cases hprint

end Count

/-! ## Addresses -/

/-- An address as it stands in a record. -/
structure ListedAddress where
  ip : Bytes
  port : ℕ
  noNul : 0 ∉ ip
  short : ip.length < IP_LEN
  portFits : port ≤ 65535
  deriving DecidableEq

/-- The own address in the memory of the peer, and the address that it stands for. -/
structure OwnAddress where
  address : PeerAddress
  listed : ListedAddress
  ip : cString address.ip = listed.ip
  port : atoi address.port = some (Int32.ofNat listed.port)

def ListedAddress.ipField (a : ListedAddress) : Bytes := a.ip.rightpad IP_LEN 0

def ListedAddress.bytes (a : ListedAddress) : Bytes := a.ipField ++ encode 4 a.port

/-- The body of a reply. -/
def records (entries : List ListedAddress) : Bytes := entries.flatMap ListedAddress.bytes

/-- What the texts in the arrays are. -/
def PeerAddress.texts (a : PeerAddress) : Bytes × Bytes := (cString a.ip, cString a.port)

def ListedAddress.texts (a : ListedAddress) : Bytes × Bytes := (a.ip, decimal a.port)

/-- The own address comes first, and then each of the other ones, once. -/
structure NetworkTable.Lists (network : NetworkTable) (me : OwnAddress)
    (entries : List ListedAddress) : Prop where
  peerCount : network.peerCount = entries.length
  slots : ∃ others : List PeerAddress,
    (List.range entries.length).map network.slots = (me.address :: others).map some ∧
      (others.map PeerAddress.texts).Perm ((entries.erase me.listed).map ListedAddress.texts)

/-- What `reply_port` holds for an address. -/
def portField (replyPort : Bytes) (port : ℕ) : Bytes :=
  decimal port ++ 0 :: replyPort.drop ((decimal port).length + 1)

/-- The record is taken for the own one: the ip is the own one and the first four characters of the
port are, with what comes behind a NUL counting as one of them. -/
def Mistaken (me : OwnAddress) (replyPort : Bytes) (a : ListedAddress) : Prop :=
  (portField replyPort a.port).take 4 = me.address.port.take 4 ∧ a.ip = me.listed.ip

instance (me : OwnAddress) (replyPort : Bytes) (a : ListedAddress) :
    Decidable (Mistaken me replyPort a) :=
  inferInstanceAs (Decidable (_ ∧ _))

section Address

theorem toList_toString (n : ℕ) : (toString n).toList = Nat.toDigits 10 n := Nat.toList_repr

theorem mem_toString {n : ℕ} {c : Char} (h : c ∈ (toString n).toList) : c.isDigit := by
  rw [toList_toString] at h
  exact Nat.isDigit_of_mem_toDigits (by decide) (by decide) h

theorem nul_not_mem_decimal (n : ℕ) : 0 ∉ decimal n := by
  rw [decimal, PythonText.mem_encode_ascii (by decide)]
  intro hmem
  exact absurd (mem_toString hmem) (by decide)

theorem decimal_injective : Function.Injective decimal := by
  intro m n h
  have hdigits : Nat.toDigits 10 m = Nat.toDigits 10 n := by
    rw [← toList_toString, ← toList_toString, PythonText.encode_injective h]
  rw [← @Nat.ofDigitChars_ten_toDigits m, hdigits, Nat.ofDigitChars_ten_toDigits]

theorem length_decimal {n : ℕ} (h : n ≤ 65535) : (decimal n).length < PORT_LEN := by
  have hascii : ∀ c ∈ (toString n).toList, c.toNat < 128 := by
    intro c hc
    have hdigit := mem_toString hc
    rw [Char.isDigit, Bool.and_eq_true, decide_eq_true_eq, decide_eq_true_eq] at hdigit
    exact Nat.lt_of_le_of_lt hdigit.2 (by decide)
  have hlength : (Nat.toDigits 10 n).length ≤ 5 :=
    (Nat.length_toDigits_le_iff (by decide) (by decide)).mpr (by omega)
  have hport : PORT_LEN = 8 := rfl
  rw [decimal, PythonText.length_encode_ascii hascii, toList_toString]
  omega

theorem ListedAddress.texts_injective : Function.Injective ListedAddress.texts := by
  intro a b h
  obtain ⟨hip, hport⟩ := Prod.mk.inj h
  cases a
  cases b
  simp only at hip hport
  subst hip
  cases decimal_injective hport
  rfl

theorem ListedAddress.length_ipField (a : ListedAddress) : a.ipField.length = IP_LEN := by
  rw [ipField, List.length_rightpad]
  exact Nat.max_eq_left a.short.le

theorem ListedAddress.length_bytes (a : ListedAddress) : a.bytes.length = RECORD_LEN := by
  rw [bytes, List.length_append, a.length_ipField, length_encode]
  rfl

theorem ListedAddress.cString_ipField (a : ListedAddress) : cString a.ipField = a.ip := by
  obtain ⟨n, hn⟩ := Nat.exists_eq_add_of_lt a.short
  rw [ipField, List.rightpad, hn, Nat.add_assoc, Nat.add_sub_cancel_left, List.replicate_succ]
  exact cString_plain a.noNul _

theorem ListedAddress.cString_portField (a : ListedAddress) (replyPort : Bytes) :
    cString (portField replyPort a.port) = decimal a.port :=
  cString_plain (nul_not_mem_decimal a.port) _

theorem length_records (entries : List ListedAddress) :
    (records entries).length = entries.length * RECORD_LEN := by
  rw [records, List.length_flatMap, List.map_congr_left fun a _ => a.length_bytes, List.map_const',
    List.sum_replicate_nat]

end Address

/-! ## The loop over the records -/

section Loop

variable {alloc : Allocator} {me : OwnAddress} {found : ℕ → Bytes} {entries : List ListedAddress}

/-- What is stored for the record with number `i`. -/
def filed (me : OwnAddress) (found : ℕ → Bytes) (entries : List ListedAddress) (i : ℕ) :
    Option PeerAddress :=
  match entries[i]? with
  | none => none
  | some a =>
    if Mistaken me (found i) a then none else some ⟨a.ipField, portField (found i) a.port⟩

/-- The slots behind the first `n` records. -/
def slotsAfter (me : OwnAddress) (found : ℕ → Bytes) (entries : List ListedAddress) (n : ℕ) :
    ℕ → Option PeerAddress
  | 0 => some me.address
  | i + 1 => if i < n then filed me found entries i else none

/-- There is room for the record with number `i` of `count` ones: a slot for its pointer, and a
whole address behind the pointer. -/
def Fits (alloc : Allocator) (count i : ℕ) : Prop :=
  POINTER_LEN * (i + 1 + 1) ≤ alloc.usable (POINTER_LEN * count + 1) ∧
    IP_LEN + PORT_LEN ≤ alloc.usable POINTER_LEN

instance (alloc : Allocator) (count i : ℕ) : Decidable (Fits alloc count i) :=
  inferInstanceAs (Decidable (_ ∧ _))

/-- There is room for all that is stored of the first `n` records. -/
def Room (alloc : Allocator) (me : OwnAddress) (found : ℕ → Bytes) (entries : List ListedAddress)
    (n : ℕ) : Prop :=
  ∀ i < n, (filed me found entries i).isSome → Fits alloc entries.length i

instance (n : ℕ) : Decidable (Room alloc me found entries n) :=
  inferInstanceAs (Decidable (∀ i < n, _ → _))

theorem room_succ (n : ℕ) : Room alloc me found entries (n + 1) ↔
    Room alloc me found entries n ∧
      ((filed me found entries n).isSome → Fits alloc entries.length n) :=
  Nat.forall_lt_succ_right

theorem slotsAfter_none {n : ℕ} (h : filed me found entries n = none) :
    slotsAfter me found entries (n + 1) = slotsAfter me found entries n := by
  funext i
  cases i with
  | zero => rfl
  | succ i =>
    rw [slotsAfter, slotsAfter]
    by_cases hi : i = n
    · rw [hi, h, ite_self, ite_self]
    · exact if_congr (by omega) rfl rfl

theorem slotsAfter_some {n : ℕ} {b : PeerAddress} (h : filed me found entries n = some b) :
    slotsAfter me found entries (n + 1) =
      Function.update (slotsAfter me found entries n) (n + 1) (some b) := by
  funext i
  cases i with
  | zero => rfl
  | succ i =>
    by_cases hi : i = n
    · rw [hi, Function.update_self, slotsAfter, if_pos (Nat.lt_succ_self n), h]
    · rw [Function.update_of_ne (by omega), slotsAfter, slotsAfter]
      exact if_congr (by omega) rfl rfl

theorem filed_of_getElem? {i : ℕ} {a : ListedAddress} (h : entries[i]? = some a) :
    filed me found entries i =
      if Mistaken me (found i) a then none else some ⟨a.ipField, portField (found i) a.port⟩ := by
  rw [filed, h]

/-- A record is read as it was written. -/
theorem slice_records {i : ℕ} {a : ListedAddress} (h : entries[i]? = some a) :
    slice (records entries) (i * RECORD_LEN) (i * RECORD_LEN + 16) = a.ipField ∧
      slice (records entries) (i * RECORD_LEN + 16) (i * RECORD_LEN + 16 + 4) = encode 4 a.port := by
  obtain ⟨hi, ha⟩ := List.getElem?_eq_some_iff.mp h
  have hcut : entries = entries.take i ++ a :: entries.drop (i + 1) := by
    rw [← ha, List.getElem_cons_drop, List.take_append_drop]
  have hbefore : (records (entries.take i)).length = i * RECORD_LEN := by
    rw [length_records, List.length_take, Nat.min_eq_left hi.le]
  have hrecords : records entries = records (entries.take i) ++
      (a.ipField ++ (encode 4 a.port ++ records (entries.drop (i + 1)))) := by
    conv_lhs => rw [hcut]
    simp only [records, List.flatMap_append, List.flatMap_cons, ListedAddress.bytes,
      List.append_assoc]
  constructor
  · exact slice_field _ _ _ hrecords hbefore (by rw [a.length_ipField]; rfl)
  · refine slice_field (records (entries.take i) ++ a.ipField) _ (records (entries.drop (i + 1)))
      ?_ ?_ (by rw [length_encode])
    · rw [hrecords, List.append_assoc]
    · rw [List.length_append, hbefore, a.length_ipField]
      rfl

/-- A round of the loop. -/
theorem noteRecord_records {i : ℕ} {a : ListedAddress} (h : entries[i]? = some a)
    (network : NetworkTable) :
    noteRecord alloc me.address found (records entries) network i =
      match filed me found entries i with
      | none => some network
      | some b => network.store alloc (i + 1) b := by
  obtain ⟨hip, hport⟩ := slice_records h
  have hnumber : decode (encode 4 a.port) = a.port :=
    decode_encode 4 a.port (a.portFits.trans_lt (by decide))
  have hprint : sprintf (found i) a.port = some (portField (found i) a.port) :=
    if_pos (length_decimal a.portFits)
  have hmine : IsMine me.address a.ipField (portField (found i) a.port) ↔
      Mistaken me (found i) a := by
    rw [IsMine, Mistaken, a.cString_ipField, me.ip]
  rw [noteRecord, hip, hport, hnumber, hprint, filed_of_getElem? h]
  simp only [Option.bind_eq_bind, Option.bind_some, hmine]
  split <;> rfl

theorem store_eq {network : NetworkTable} {count : ℕ}
    (hsize : network.size = alloc.usable (POINTER_LEN * count + 1)) (i : ℕ) (b : PeerAddress) :
    network.store alloc (i + 1) b =
      if Fits alloc count i then
        some { network with slots := Function.update network.slots (i + 1) (some b) }
      else none := by
  rw [NetworkTable.store, hsize]
  rfl

/-- The loop gets to its end exactly if there is room for all that it stores. -/
theorem noteRecord_loop {n : ℕ} (hn : n ≤ entries.length) {network : NetworkTable}
    (hsize : network.size = alloc.usable (POINTER_LEN * entries.length + 1))
    (hslots : network.slots = slotsAfter me found entries 0) :
    (List.range n).foldlM (noteRecord alloc me.address found (records entries)) network =
      if Room alloc me found entries n then
        some { network with slots := slotsAfter me found entries n }
      else none := by
  induction n with
  | zero =>
    have hroom : Room alloc me found entries 0 := fun i hi => absurd hi (Nat.not_lt_zero i)
    rw [if_pos hroom, ← hslots]
    rfl
  | succ n ih =>
    obtain ⟨a, ha⟩ : ∃ a, entries[n]? = some a := ⟨_, List.getElem?_eq_getElem hn⟩
    have hround := @noteRecord_records alloc me found entries n a ha
    rw [List.range_succ, List.foldlM_append, ih (Nat.le_of_succ_le hn)]
    by_cases hbefore : Room alloc me found entries n
    case neg =>
      rw [if_neg hbefore, if_neg fun h => hbefore ((room_succ n).mp h).1]
      rfl
    case pos =>
      rw [if_pos hbefore]
      rw [Option.bind_eq_bind, Option.bind_some, List.foldlM_cons, hround]
      simp only [List.foldlM_nil, bind_pure]
      cases hfiled : filed me found entries n with
      | none =>
        have hroom : Room alloc me found entries (n + 1) := by
          rw [room_succ, hfiled]
          exact ⟨hbefore, fun h => absurd h (by decide)⟩
        rw [if_pos hroom, slotsAfter_none hfiled]
      | some b =>
        have hroom : Room alloc me found entries (n + 1) ↔ Fits alloc entries.length n := by
          rw [room_succ, hfiled]
          exact ⟨fun h => h.2 rfl, fun h => ⟨hbefore, fun _ => h⟩⟩
        rw [slotsAfter_some hfiled]
        refine (store_eq ?_ n b).trans (if_congr hroom.symm rfl rfl)
        exact hsize

/-- The section as a whole: every slot has to be there for the last loop. -/
theorem noteReply_records (hentries : entries ≠ []) :
    noteReply alloc me.address found (records entries) (records entries).length
        (mainTable alloc me.address) =
      if Room alloc me found entries entries.length ∧
          ∀ i < entries.length, (slotsAfter me found entries entries.length i).isSome then
        some ⟨entries.length, alloc.usable (POINTER_LEN * entries.length + 1),
          slotsAfter me found entries entries.length⟩
      else none := by
  have hcount : (records entries).length / RECORD_LEN = entries.length := by
    rw [length_records]
    exact Nat.mul_div_cancel _ (by decide)
  have hslots : ({ mainTable alloc me.address with peerCount := entries.length }.realloc alloc
      (POINTER_LEN * entries.length + 1)).slots = slotsAfter me found entries 0 := by
    funext i
    cases i with
    | zero =>
      have hpos := List.length_pos_iff.mpr hentries
      exact if_pos (Nat.le_succ_of_le (Nat.mul_le_mul_left POINTER_LEN hpos))
    | succ i => exact ite_self none
  rw [noteReply, hcount, noteRecord_loop le_rfl rfl hslots]
  by_cases hroom : Room alloc me found entries entries.length
  · rw [if_pos hroom]
    simp only [Option.bind_eq_bind, Option.bind_some, hroom, true_and]
    rfl
  · rw [if_neg hroom, if_neg fun h => hroom h.1]
    rfl

end Loop

/-! ## The table after the reply -/

section Table

variable {alloc : Allocator} {me : OwnAddress} {found : ℕ → Bytes} {entries : List ListedAddress}

/-- The reply comes in one block and names the own address last, no other address is taken for that
one, and there is room for each address that is stored. -/
structure Orderly (alloc : Allocator) (me : OwnAddress) (found : ℕ → Bytes)
    (entries : List ListedAddress) : Prop where
  single : entries.length * RECORD_LEN ≤ sendableLength
  last : entries.getLast? = some me.listed
  noticed : ∀ i < entries.length - 1, ∀ a, entries[i]? = some a → ¬Mistaken me (found i) a
  room : ∀ i a, entries[i]? = some a → ¬Mistaken me (found i) a → Fits alloc entries.length i

theorem isSome_filed_iff (i : ℕ) : (filed me found entries i).isSome ↔
    ∃ a, entries[i]? = some a ∧ ¬Mistaken me (found i) a := by
  cases hentry : entries[i]? with
  | none => simp [filed, hentry]
  | some a =>
    rw [filed_of_getElem? hentry]
    by_cases hmistaken : Mistaken me (found i) a
    · simp [hmistaken]
    · simp [hmistaken]

theorem texts_of_filed {i : ℕ} {a : ListedAddress} {b : PeerAddress} (ha : entries[i]? = some a)
    (hb : filed me found entries i = some b) : b.texts = a.texts := by
  rw [filed_of_getElem? ha] at hb
  split at hb
  case isTrue => cases hb
  case isFalse =>
    cases hb
    rw [PeerAddress.texts, a.cString_ipField, a.cString_portField, ListedAddress.texts]

theorem map_slotsAfter (m : ℕ) :
    (List.range (m + 1)).map (slotsAfter me found entries (m + 1)) =
      some me.address :: (List.range m).map (filed me found entries) := by
  rw [List.range_succ_eq_map, List.map_cons, List.map_map]
  refine congrArg _ (List.map_congr_left fun i hi => ?_)
  exact if_pos (Nat.lt_succ_of_lt (List.mem_range.mp hi))

/-- The stored addresses are the listed ones. -/
theorem map_texts_filed {front : List ListedAddress} {last : ListedAddress}
    {others : List PeerAddress}
    (h : (List.range front.length).map (filed me found (front ++ [last])) = others.map some) :
    others.map PeerAddress.texts = front.map ListedAddress.texts := by
  have hlength : others.length = front.length := by
    rw [← List.length_map some, ← h, List.length_map, List.length_range]
  refine List.ext_getElem (by rw [List.length_map, List.length_map, hlength]) fun i hi hi' => ?_
  rw [List.length_map] at hi hi'
  have hfiled : filed me found (front ++ [last]) i = some others[i] := by
    have hsame := congrArg (·[i]?) h
    simpa [hi, hi'] using hsame
  have hentry : (front ++ [last])[i]? = some front[i] := by
    rw [List.getElem?_append_left hi', List.getElem?_eq_getElem hi']
  rw [List.getElem_map, List.getElem_map]
  exact texts_of_filed hentry hfiled

theorem front_perm_iff {α : Type} [DecidableEq α] {own last : α} {front : List α}
    (hdistinct : (front ++ [last]).Nodup) (hmine : own ∈ front ++ [last]) :
    front.Perm ((front ++ [last]).erase own) ↔ last = own := by
  constructor
  · intro h
    have hall : (own :: front).Perm (front ++ [last]) :=
      (h.cons own).trans (List.perm_cons_erase hmine).symm
    have hnotin := (List.nodup_cons.mp (hall.nodup_iff.mpr hdistinct)).1
    cases List.mem_append.mp hmine with
    | inl hfront => exact absurd hfront hnotin
    | inr hlast => exact (List.mem_singleton.mp hlast).symm
  · rintro rfl
    have hnotin : last ∉ front := by
      intro hmem
      exact (List.nodup_append.mp hdistinct).2.2 last hmem last List.mem_cons_self rfl
    rw [List.erase_append_right _ hnotin, List.erase_cons_head, List.append_nil]

/-- What the table holds at the end is the list exactly if the last record is the only one that is
left out of it. -/
theorem lists_iff (hdistinct : entries.Nodup) (hmine : me.listed ∈ entries) (size : ℕ) :
    (NetworkTable.mk entries.length size (slotsAfter me found entries entries.length)).Lists me
        entries ↔
      entries.getLast? = some me.listed ∧
        ∀ i < entries.length - 1, (filed me found entries i).isSome := by
  obtain ⟨front, last, rfl⟩ : ∃ front last, entries = front ++ [last] :=
    (List.eq_nil_or_concat' entries).resolve_left (List.ne_nil_of_mem hmine)
  have hlength : (front ++ [last]).length = front.length + 1 := List.length_append
  rw [List.getLast?_append_of_ne_nil _ (List.cons_ne_nil _ _), List.getLast?_singleton,
    Option.some_inj, hlength, Nat.add_sub_cancel]
  constructor
  · intro h
    obtain ⟨others, hslots, hperm⟩ := h.slots
    rw [hlength, map_slotsAfter, List.map_cons] at hslots
    have hfiled := (List.cons.inj hslots).2
    rw [map_texts_filed hfiled, List.map_perm_map_iff ListedAddress.texts_injective,
      front_perm_iff hdistinct hmine] at hperm
    refine ⟨hperm, fun i hi => ?_⟩
    have hmem := List.mem_map_of_mem (f := filed me found (front ++ [last])) (List.mem_range.mpr hi)
    rw [hfiled] at hmem
    obtain ⟨b, -, hb⟩ := List.mem_map.mp hmem
    rw [← hb]
    rfl
  · intro ⟨hlast, hsome⟩
    obtain ⟨others, hfiled⟩ : (List.range front.length).map (filed me found (front ++ [last])) ∈
        Set.range (List.map some) := by
      rw [Set.range_list_map]
      intro slot hslot
      obtain ⟨i, hi, rfl⟩ := List.mem_map.mp hslot
      obtain ⟨b, hb⟩ := Option.isSome_iff_exists.mp (hsome i (List.mem_range.mp hi))
      exact ⟨b, hb.symm⟩
    refine ⟨hlength.symm, others, ?_, ?_⟩
    · rw [hlength, map_slotsAfter, ← hfiled, List.map_cons]
    · rw [map_texts_filed hfiled.symm]
      exact ((front_perm_iff hdistinct hmine).mpr hlast).map _

/-- The whole reply is read, and the last payload is what the table is made of. -/
theorem register_content (sha : Sha256) {content : Bytes} {blocks : List (ℕ × Bytes)}
    (hblocks : blocks.Perm (makeBlocks content).2) (hcount : (makeBlocks content).1 < 2 ^ 32)
    (network : NetworkTable) (msgBuf file : Bytes) :
    (register alloc me.address sha found network
        (connected (contentStream sha content blocks) msgBuf file)).1 =
      noteReply alloc me.address found (blocks.getLast (ne_nil_of_perm hblocks)).2
        (blocks.getLast (ne_nil_of_perm hblocks)).2.length network := by
  obtain ⟨first, c₁, c', hread, hrun, ⟨behind, hbuf⟩, -⟩ := receiveBlocks_content sha
    COMMAND_REGISTER hblocks hcount
    (c := connected (contentStream sha content blocks) msgBuf file) rfl
  have hlast := hblocks.mem_iff.mp (List.getLast_mem (ne_nil_of_perm hblocks))
  generalize blocks.getLast (ne_nil_of_perm hblocks) = last at *
  have hsize : ¬MAX_MSG_LEN < last.2.length := by
    have hmax : sendableLength ≤ MAX_MSG_LEN := by decide
    exact Nat.not_lt.mpr (((makeBlocks_splits content).sizes last hlast).trans hmax)
  rw [register, hread]
  simp only [hrun]
  rw [noteNetwork, hbuf]
  simp only [headerOf, hsize, if_false, if_true, List.take_left]

end Table

/-- The table lists what the reply lists exactly if the reply is orderly. -/
theorem registered_table_iff (sha : Sha256) (alloc : Allocator) (me : OwnAddress)
    (found : ℕ → Bytes) {entries : List ListedAddress} {blocks : List (ℕ × Bytes)}
    (hdistinct : entries.Nodup) (hmine : me.listed ∈ entries)
    (hblocks : blocks.Perm (makeBlocks (records entries)).2)
    (hcount : (makeBlocks (records entries)).1 < 2 ^ 32) (msgBuf file : Bytes) :
    (∃ network, (register alloc me.address sha found (mainTable alloc me.address)
        (connected (contentStream sha (records entries) blocks) msgBuf file)).1 = some network ∧
      network.Lists me entries) ↔ Orderly alloc me found entries := by
  have hne : entries ≠ [] := List.ne_nil_of_mem hmine
  have hlength := length_records entries
  rw [register_content sha hblocks hcount]
  by_cases hsingle : entries.length * RECORD_LEN ≤ sendableLength
  case pos =>
    have hpos : 0 < (records entries).length := by
      rw [hlength]
      exact Nat.mul_pos (List.length_pos_iff.mpr hne) (by decide)
    have hmake := makeBlocks_single hpos (hlength.trans_le hsingle)
    rw [hmake] at hblocks
    cases List.perm_singleton.mp hblocks
    rw [List.getLast_singleton, noteReply_records hne]
    constructor
    · intro ⟨network, hsome, hlists⟩
      split at hsome
      case isTrue hdone =>
        cases hsome
        obtain ⟨hlast, hfiled⟩ := (lists_iff hdistinct hmine _).mp hlists
        refine ⟨hsingle, hlast, fun i hi a ha => ?_, fun i a ha hseen => ?_⟩
        · obtain ⟨b, hb, hseen⟩ := (isSome_filed_iff i).mp (hfiled i hi)
          rw [ha] at hb
          rwa [Option.some_inj.mp hb]
        · have hi := (List.getElem?_eq_some_iff.mp ha).1
          exact hdone.1 i hi ((isSome_filed_iff i).mpr ⟨a, ha, hseen⟩)
      case isFalse => cases hsome
    · intro h
      have hfiled : ∀ i < entries.length - 1, (filed me found entries i).isSome := by
        intro i hi
        have hentry : entries[i]? = some entries[i] := List.getElem?_eq_getElem (by omega)
        exact (isSome_filed_iff i).mpr ⟨_, hentry, h.noticed i hi _ hentry⟩
      refine ⟨_, if_pos ⟨fun i hi hsome => ?_, fun i hi => ?_⟩,
        (lists_iff hdistinct hmine _).mpr ⟨h.last, hfiled⟩⟩
      · obtain ⟨a, ha, hseen⟩ := (isSome_filed_iff i).mp hsome
        exact h.room i a ha hseen
      · cases i with
        | zero => rfl
        | succ i =>
          rw [slotsAfter, if_pos (Nat.lt_of_succ_lt hi)]
          exact hfiled i (by omega)
  case neg =>
    refine ⟨fun ⟨network, hsome, hlists⟩ => ?_, fun h => absurd h.single hsingle⟩
    -- the count is made of the last payload only, which is shorter than the body
    have hcounted := noteReply_peerCount hsome
    have hpayload := (makeBlocks_splits (records entries)).sizes _
      (hblocks.mem_iff.mp (List.getLast_mem (ne_nil_of_perm hblocks)))
    rw [hlists.peerCount] at hcounted
    have hbound := Nat.div_mul_le_self
      (blocks.getLast (ne_nil_of_perm hblocks)).2.length RECORD_LEN
    rw [← hcounted] at hbound
    exact absurd (hbound.trans hpayload) hsingle

/-- The blocks of glibc: a multiple of sixteen bytes, less eight, and not below 24. -/
def glibc : Allocator where
  usable n := max 24 ((n + 23) / 16 * 16 - 8)
  le_usable n := by omega

/-- `10.0.0.2` with port 7. -/
def ownAddress : OwnAddress where
  address := ⟨[49, 48, 46, 48, 46, 48, 46, 50, 0, 0, 0, 0, 0, 0, 0, 0], [55, 0, 0, 0, 0, 0, 0, 0]⟩
  listed := ⟨[49, 48, 46, 48, 46, 48, 46, 50], 7, by decide, by decide, by decide⟩
  ip := by decide
  port := by decide

/-- `10.0.0.1` with port 5. -/
def otherAddress : ListedAddress :=
  ⟨[49, 48, 46, 48, 46, 48, 46, 49], 5, by decide, by decide, by decide⟩

/-- The reply to a new peer, which names it last. -/
theorem registered_table_last : ∃ network,
    (register glibc ownAddress.address recordsSha256 (fun _ => List.replicate 8 0)
        (mainTable glibc ownAddress.address)
        (connected (contentStream recordsSha256 (records [otherAddress, ownAddress.listed])
          [(0, records [otherAddress, ownAddress.listed])]) [] [])).1 = some network ∧
      network.Lists ownAddress [otherAddress, ownAddress.listed] := by
  have hmake : makeBlocks (records [otherAddress, ownAddress.listed]) =
      (1, [(0, records [otherAddress, ownAddress.listed])]) :=
    makeBlocks_single (by decide) (by decide)
  refine (registered_table_iff recordsSha256 glibc ownAddress (fun _ => List.replicate 8 0)
    (by decide) (by decide) (hmake ▸ List.Perm.refl _) (hmake ▸ by decide) [] []).mpr ?_
  refine ⟨by decide, by decide, ?_, ?_⟩
  · intro i hi a ha
    obtain rfl : i = 0 := Nat.lt_one_iff.mp hi
    cases ha
    decide
  · intro i a ha _
    have hi : i < 2 := (List.getElem?_eq_some_iff.mp ha).1
    interval_cases i <;> decide

/-- The own address comes first: its slot stays empty, and the last loop reads it. -/
theorem registered_table_first : [ownAddress.listed, otherAddress].Nodup ∧
    ownAddress.listed ∈ [ownAddress.listed, otherAddress] ∧
    [(0, records [ownAddress.listed, otherAddress])].Perm
      (makeBlocks (records [ownAddress.listed, otherAddress])).2 ∧
    (makeBlocks (records [ownAddress.listed, otherAddress])).1 < 2 ^ 32 ∧
    ∀ sha : Sha256, ¬∃ network,
      (register glibc ownAddress.address sha (fun _ => List.replicate 8 0)
          (mainTable glibc ownAddress.address)
          (connected (contentStream sha (records [ownAddress.listed, otherAddress])
            [(0, records [ownAddress.listed, otherAddress])]) [] [])).1 = some network ∧
        network.Lists ownAddress [ownAddress.listed, otherAddress] := by
  have hmake : makeBlocks (records [ownAddress.listed, otherAddress]) =
      (1, [(0, records [ownAddress.listed, otherAddress])]) :=
    makeBlocks_single (by decide) (by decide)
  have hblocks : [(0, records [ownAddress.listed, otherAddress])].Perm
      (makeBlocks (records [ownAddress.listed, otherAddress])).2 := hmake ▸ List.Perm.refl _
  have hcount : (makeBlocks (records [ownAddress.listed, otherAddress])).1 < 2 ^ 32 :=
    hmake ▸ by decide
  refine ⟨by decide, by decide, hblocks, hcount, fun sha ⟨network, hsome, _⟩ => ?_⟩
  have hnote : (noteReply glibc ownAddress.address (fun _ => List.replicate 8 0)
      (records [ownAddress.listed, otherAddress])
      (records [ownAddress.listed, otherAddress]).length
      (mainTable glibc ownAddress.address)).isNone := by
    decide +kernel
  rw [register_content sha hblocks hcount] at hsome
  cases hsome.symm.trans (Option.isNone_iff_eq_none.mp hnote)

end CompSys.PeerClient
