import CompSys.PeerHandle
import Mathlib.Data.Bool.AllAny
import Mathlib.Data.Set.List

/-!
# How the network reaches a peer that registers

`_register` packs the network list into records of twenty bytes and sends them as the
payload of its reply; `to_server` cuts the payload of the reply into records again. What
comes back from an address that fits its record is that address.
-/
namespace CompSys.Peer

open PythonText

/-- `ip:port` with an ip that fits its field, and a port that `_register` accepts. -/
structure Address where
  ip : String
  port : Nat
  nonempty : ip.toList ≠ []
  short : ip.toList.length ≤ LEN_IP
  ascii : ∀ c ∈ ip.toList, c.toNat < 128
  noColon : ':' ∉ ip.toList
  noNul : Char.ofNat 0 ∉ ip.toList
  positive : 0 < port
  portFits : port < 2 ^ 32

def Address.text (a : Address) : String := addressOf a.ip a.port

/-- The bytes that `_register` sends for an address. -/
def Address.bytes (a : Address) : Bytes := padIp a.ip.toList ++ BigEndian.encode 4 a.port

/-! ## One record -/

/-- `int` undoes the printing of a number. -/
theorem parseInt_toDigits (n : Nat) : parseInt (Nat.toDigits 10 n) = .ok n := by
  have hdigits : (Nat.toDigits 10 n).all Char.isDigit = true := by
    rw [List.all_eq_true]
    intro c hc
    exact Nat.isDigit_of_mem_toDigits (by decide) (by decide) hc
  have hne : Nat.toDigits 10 n ≠ [] := Nat.toDigits_ne_nil
  rw [parseInt, if_pos ⟨hne, hdigits⟩, ← Nat.ofDigitChars_eq_foldl, Nat.ofDigitChars_ten_toDigits]

theorem colon_not_mem_toDigits (n : Nat) : ':' ∉ Nat.toDigits 10 n := by
  intro hmem
  exact absurd (Nat.isDigit_of_mem_toDigits (by decide) (by decide) hmem) (by decide)

/-- The port is behind the last colon. -/
theorem splitOn_addressOf (ip : String) (port : Nat) :
    (addressOf ip port).toList.splitOn ':' =
      ip.toList.splitOn ':' ++ [Nat.toDigits 10 port] := by
  rw [toList_addressOf, List.splitOn_append_cons_self,
    List.splitOn_eq_singleton (colon_not_mem_toDigits port)]

theorem splitPeer_addressOf {ip : String} (h : ':' ∉ ip.toList) (port : Nat) :
    splitPeer (addressOf ip port) = .ok (ip.toList, Nat.toDigits 10 port) := by
  rw [splitPeer, splitOn_addressOf, List.splitOn_eq_singleton h]
  rfl

/-- An ip with a colon of its own gives too many values to unpack. -/
theorem splitPeer_colon {ip : String} (h : ':' ∈ ip.toList) (port : Nat) :
    splitPeer (addressOf ip port) = .error .valueError := by
  obtain ⟨front, back, hip⟩ := List.append_of_mem h
  obtain ⟨first, rest, hfirst⟩ := List.exists_cons_of_ne_nil (List.splitOn_ne_nil ':' front)
  obtain ⟨second, last, hsecond⟩ := List.exists_cons_of_ne_nil (List.splitOn_ne_nil ':' back)
  rw [splitPeer, splitOn_addressOf, hip, List.splitOn_append_cons_self, hfirst, hsecond]
  cases rest with
  | nil => cases last <;> rfl
  | cons middle rest => cases rest <;> rfl

theorem packPeer_eq (peer : String) :
    packPeer peer = (do
      let (ip, port) ← splitPeer peer
      let number ← parseInt port
      let portField ← pack number
      return padIp ip ++ portField) := by
  rw [packPeer, splitPeer]
  rcases peer.toList.splitOn ':' with _ | ⟨ip, _ | ⟨port, _ | _⟩⟩ <;> rfl

/-- An address is packed exactly if its ip has no colon. -/
theorem packPeer_addressOf {ip : String} {port : Nat} (h : ':' ∉ ip.toList) (hport : port < 2 ^ 32) :
    packPeer (addressOf ip port) = .ok (padIp ip.toList ++ BigEndian.encode 4 port) := by
  rw [packPeer_eq, splitPeer_addressOf h]
  simp only [bind, Except.bind, parseInt_toDigits, pack_eq hport]
  rfl

theorem packPeer_colon {ip : String} (h : ':' ∈ ip.toList) (port : Nat) :
    packPeer (addressOf ip port) = .error .valueError := by
  rw [packPeer_eq, splitPeer_colon h]
  rfl

theorem Address.packPeer (a : Address) : packPeer a.text = .ok a.bytes := by
  exact packPeer_addressOf a.noColon a.portFits

/-- The field of an ip: the ip and the NULs that fill it up. -/
theorem Address.padIp_eq (a : Address) :
    padIp a.ip.toList = encode (String.ofList
      (a.ip.toList ++ List.replicate (LEN_IP - a.ip.toList.length) (Char.ofNat 0))) := by
  rw [padIp_eq_encode, List.take_of_length_le a.short, List.rightpad]

/-- The NULs are stripped again, since the ip has none of its own. -/
theorem Address.stripNul (a : Address) (n : Nat) :
    stripNul (String.ofList (a.ip.toList ++ List.replicate n (Char.ofNat 0))) = a.ip := by
  rw [stripNul_pad a.noNul, String.ofList_toList]

theorem Address.length_padIp (a : Address) : (padIp a.ip.toList).length = LEN_IP :=
  length_padIp_ascii a.ascii

theorem Address.length_bytes (a : Address) : a.bytes.length = LEN_IP + LEN_PORT := by
  rw [bytes, List.length_append, a.length_padIp, BigEndian.length_encode]
  rfl

/-- A record is read back wherever it stands. -/
theorem Address.recordAddress (a : Address) (before after : Bytes) :
    recordAddress (before ++ (a.bytes ++ after)) before.length = .ok a.text := by
  have hip := a.length_padIp
  have hport := BigEndian.length_encode 4 a.port
  have hipField : slice (before ++ (a.bytes ++ after)) before.length (before.length + LEN_IP) =
      padIp a.ip.toList :=
    slice_field before _ (BigEndian.encode 4 a.port ++ after) (by simp [bytes]) rfl (by rw [hip])
  have hportField : slice (before ++ (a.bytes ++ after)) (before.length + LEN_IP)
      (before.length + LEN_IP + LEN_PORT) = BigEndian.encode 4 a.port :=
    slice_field (before ++ padIp a.ip.toList) _ after (by simp [bytes]) (by simp [hip])
      (by rw [hport]; rfl)
  rw [Peer.recordAddress, hipField, hportField, unpack_encode a.portFits, a.padIp_eq,
    decodeUtf8_encode]
  simp only [bind, Except.bind, a.stripNul]
  rfl

/-! ## The payload -/

/-- What `_register` sends for a network with the given addresses. -/
def recordsOf (addresses : List Address) : Bytes := addresses.flatMap Address.bytes

theorem length_recordsOf (addresses : List Address) :
    (recordsOf addresses).length = addresses.length * (LEN_IP + LEN_PORT) := by
  rw [recordsOf, List.length_flatMap, List.map_congr_left fun a _ => a.length_bytes,
    List.map_const', List.sum_replicate_nat]

theorem mapM_packPeer (network : Network) (addresses : List Address)
    (h : addresses.map Address.text = network.map Prod.fst) :
    (network.mapM fun entry => packPeer entry.1) = .ok (addresses.map Address.bytes) := by
  induction network generalizing addresses with
  | nil =>
    rw [List.map_nil, List.map_eq_nil_iff] at h
    rw [h]
    rfl
  | cons entry network ih =>
    obtain ⟨a, rest, rfl, htext, hrest⟩ := List.map_eq_cons_iff.mp h
    rw [List.mapM_cons, ← htext, a.packPeer, ih rest hrest]
    rfl

/-- A new address makes the reply one record longer. -/
theorem registerSection_records {network : Network} {addresses : List Address} {a : Address}
    (h : addresses.map Address.text = network.map Prod.fst)
    (hnew : a.text ∉ network.map Prod.fst) (now : ℚ) :
    registerSection a.text now network =
      (network ++ [(a.text, now)], .ok (some (recordsOf (addresses ++ [a])))) := by
  have hall : (addresses ++ [a]).map Address.text = (network ++ [(a.text, now)]).map Prod.fst := by
    rw [List.map_append, List.map_append, h]
    rfl
  rw [registerSection, if_neg hnew]
  simp only [mapM_packPeer _ _ hall, recordsOf, List.flatMap_def]
  rfl

/-! ## The merge -/

/-- Records that are read back are inserted one after the other. -/
theorem mergeLoop_eq {data : Bytes} {clock : Nat → ℚ} {is : List Nat} {addresses : List Address}
    (h : List.Forall₂ (fun i a => recordAddress data i = .ok a.text) is addresses)
    (network : Network) :
    mergeLoop data clock is network =
      (UniqueKeys.insertAll network ((addresses.map Address.text).zip (is.map clock)), .ok ()) := by
  induction h generalizing network with
  | nil => rfl
  | cons hread _ ih =>
    rw [mergeLoop, hread]
    simp only [ih]
    rw [List.map_cons, List.map_cons, List.zip_cons_cons, UniqueKeys.insertAll_cons,
      UniqueKeys.insertNew]
    split
    case isTrue hnew => rfl
    case isFalse hold => rw [if_pos (not_not.mp hold)]

/-- The records behind `done` are read at the offsets behind it. -/
theorem records_read (todo : List Address) :
    ∀ done : List Address,
      List.Forall₂ (fun i a => recordAddress (recordsOf (done ++ todo)) i = .ok a.text)
        ((List.range' done.length todo.length).map (· * (LEN_IP + LEN_PORT))) todo := by
  induction todo with
  | nil =>
    intro done
    exact .nil
  | cons a todo ih =>
    intro done
    have hrecords : recordsOf (done ++ a :: todo) =
        recordsOf done ++ (a.bytes ++ recordsOf todo) := by
      rw [recordsOf, List.flatMap_append, List.flatMap_cons]
      rfl
    have hread := a.recordAddress (recordsOf done) (recordsOf todo)
    rw [← hrecords, length_recordsOf] at hread
    have hrest := ih (done ++ [a])
    rw [← List.append_cons, List.length_append, List.length_singleton] at hrest
    rw [List.length_cons, List.range'_succ, List.map_cons]
    exact .cons hread hrest

theorem mergeSection_records (addresses : List Address) (clock : Nat → ℚ) (network : Network) :
    mergeSection (recordsOf addresses) clock network =
      (UniqueKeys.insertAll network ((addresses.map Address.text).zip
        (((List.range addresses.length).map (· * (LEN_IP + LEN_PORT))).map clock)), .ok ()) := by
  have hcount : (recordsOf addresses).length ⌈/⌉ (LEN_IP + LEN_PORT) = addresses.length := by
    rw [length_recordsOf, Nat.ceilDiv_eq_add_pred_div]
    simp only [LEN_IP, LEN_PORT]
    omega
  have hread := records_read addresses []
  rw [List.nil_append, List.length_nil, ← List.range_eq_range'] at hread
  rw [mergeSection, hcount, mergeLoop_eq hread]

/-- Every address that was not known is known now, once. -/
theorem mergeSection_added (addresses : List Address) (clock : Nat → ℚ) (network : Network) :
    ∃ added, mergeSection (recordsOf addresses) clock network = (network ++ added, .ok ()) ∧
      (added.map Prod.fst).Nodup ∧
      ∀ address, address ∈ added.map Prod.fst ↔
        address ∈ addresses.map Address.text ∧ address ∉ network.map Prod.fst := by
  have hkeys : (((addresses.map Address.text).zip
      (((List.range addresses.length).map (· * (LEN_IP + LEN_PORT))).map clock)).map Prod.fst) =
        addresses.map Address.text := by
    refine List.map_fst_zip ?_
    simp only [List.length_map, List.length_range, le_refl]
  obtain ⟨added, hadded, hunique, hmem⟩ := UniqueKeys.insertAll_eq_append
    ((addresses.map Address.text).zip
      (((List.range addresses.length).map (· * (LEN_IP + LEN_PORT))).map clock)) network
  rw [hkeys] at hmem
  exact ⟨added, by rw [mergeSection_records, hadded], hunique, hmem⟩

/-! ## The handshake -/

/-- The client keeps what it had and gets every other address of the server, the new one
included, once and as the server writes it. -/
theorem register_spreads_network (sha : Sha256)
    (shuffle : List (Nat × Bytes) → List (Nat × Bytes)) (server client : Network)
    (newAddress : String) (now : ℚ) (clock : Nat → ℚ)
    (hshuffle : ∀ blocks, (shuffle blocks).Perm blocks)
    (hform : ∀ address ∈ newAddress :: server.map Prod.fst, ∃ a : Address, a.text = address)
    (hnew : newAddress ∉ server.map Prod.fst) :
    ∃ payload, registerSection newAddress now server =
        (server ++ [(newAddress, now)], .ok (some payload)) ∧
      ((∃ messages, buildAndSendResponses sha shuffle STATUS_OK payload = (messages, .ok ())) ↔
        (makeBlocks payload).1 < 2 ^ 32) ∧
      ∀ messages, buildAndSendResponses sha shuffle STATUS_OK payload = (messages, .ok ()) →
        ∀ request later fuel, messages.length ≤ fuel →
        ∃ data added,
          sendToServer sha (exactly (messages.flatten ++ later)) fuel request true =
            some (.ok (⟨STATUS_OK, .bytes data, []⟩, later)) ∧
          mergeSection data clock client = (client ++ added, .ok ()) ∧
          (added.map Prod.fst).Nodup ∧
          ∀ address, address ∈ added.map Prod.fst ↔
            address ∈ (server ++ [(newAddress, now)]).map Prod.fst ∧
              address ∉ client.map Prod.fst := by
  obtain ⟨a, rfl⟩ := hform newAddress List.mem_cons_self
  obtain ⟨addresses, haddresses⟩ : ∃ addresses : List Address,
      addresses.map Address.text = server.map Prod.fst := by
    have hrange : server.map Prod.fst ∈ Set.range (List.map Address.text) := by
      rw [Set.range_list_map]
      exact fun address haddress => hform address (List.mem_cons_of_mem _ haddress)
    exact hrange
  refine ⟨_, registerSection_records haddresses hnew now, ?_, ?_⟩
  · constructor
    · exact fun ⟨messages, hsent⟩ => blocks_lt_of_sent hshuffle hsent
    · exact fun hcount => ⟨_, buildAndSendResponses_eq sha hshuffle (by decide) hcount⟩
  · intro messages hsent request later fuel hfuel
    have hcount := blocks_lt_of_sent hshuffle hsent
    rw [buildAndSendResponses_eq sha hshuffle (by decide) hcount] at hsent
    cases hsent
    rw [List.length_map] at hfuel
    obtain ⟨added, hmerge, hunique, hmem⟩ := mergeSection_added (addresses ++ [a]) clock client
    refine ⟨_, added, sendToServer_blocks sha hshuffle hcount request later hfuel, hmerge, hunique, ?_⟩
    intro address
    rw [hmem address, List.map_append, List.map_append, haddresses]
    rfl

/-- SHA-256 where it is used on the records of two addresses only. -/
def recordsSha256 : Sha256 where
  digest _ := [0x63, 0x95, 0xce, 0xf6, 0x0b, 0xe3, 0xe4, 0xbb, 0x06, 0x0b, 0x5a, 0xda, 0x70, 0xc1,
    0x1a, 0x14, 0xd7, 0x0d, 0x89, 0xbc, 0x41, 0x71, 0x0d, 0x9f, 0xc6, 0xd4, 0xd9, 0x00,
    0x10, 0x7c, 0xe0, 0x9d]
  length_digest _ := rfl

/-- A peer that knows only itself registers with another one that does. -/
theorem register_spreads_network_pair :
    ∃ payload data added,
      registerSection "10.0.0.2:7" 100 [("10.0.0.1:5", -1)] =
        ([("10.0.0.1:5", -1), ("10.0.0.2:7", 100)], .ok (some payload)) ∧
      mergeSection data (fun _ => 200) [("10.0.0.2:7", -1)] =
        ([("10.0.0.2:7", -1)] ++ added, .ok ()) ∧
      (added.map Prod.fst).Nodup ∧
      ∀ address, address ∈ added.map Prod.fst ↔
        address ∈ ["10.0.0.1:5", "10.0.0.2:7"] ∧ address ∉ ["10.0.0.2:7"] := by
  have hform : ∀ address ∈ ["10.0.0.2:7", "10.0.0.1:5"], ∃ a : Address, a.text = address := by
    intro address haddress
    rcases List.mem_pair.mp haddress with rfl | rfl
    · exact ⟨⟨"10.0.0.2", 7, by decide, by decide, List.all_iff_forall_prop.mp rfl, by decide,
        by decide, by decide, by decide⟩, by decide +kernel⟩
    · exact ⟨⟨"10.0.0.1", 5, by decide, by decide, List.all_iff_forall_prop.mp rfl, by decide,
        by decide, by decide, by decide⟩, by decide +kernel⟩
  obtain ⟨payload, hregister, hsends, hall⟩ := register_spreads_network recordsSha256 List.reverse
    [("10.0.0.1:5", -1)] [("10.0.0.2:7", -1)] "10.0.0.2:7" 100 (fun _ => 200) List.reverse_perm hform
    (by decide)
  have hpayload : registerSection "10.0.0.2:7" 100 [("10.0.0.1:5", -1)] =
      ([("10.0.0.1:5", -1), ("10.0.0.2:7", 100)], .ok (some [49, 48, 46, 48, 46, 48, 46, 49, 0, 0, 0, 0, 0, 0, 0, 0, 0, 0, 0, 5,
        49, 48, 46, 48, 46, 48, 46, 50, 0, 0, 0, 0, 0, 0, 0, 0, 0, 0, 0, 7])) := by
    decide +kernel
  have hcount : (makeBlocks payload).1 < 2 ^ 32 := by
    rw [hpayload] at hregister
    cases hregister
    decide
  obtain ⟨messages, hsent⟩ := hsends.mpr hcount
  obtain ⟨data, added, -, hmerge, hunique, hmem⟩ := hall messages hsent [] [] _ le_rfl
  exact ⟨payload, data, added, hregister, hmerge, hunique, hmem⟩

end CompSys.Peer
