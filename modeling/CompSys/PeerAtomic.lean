import CompSys.PeerFile
import CompSys.PeerRegister

/-!
# Whether a registration at a Python peer of A4 is done as a whole

`_register` puts the new address into the list before it makes the reply out of all entries, and
an address with a colon too many cannot be taken apart.
-/
namespace CompSys.Peer

open PythonText

/-- An ip and a port, with `:` between them. -/
def IsAddress (address : String) : Prop :=
  ∃ (ip : String) (port : ℕ), port < 2 ^ 32 ∧ address = addressOf ip port

/-- `peer.split(':')` gives two parts. -/
def OneColon (address : String) : Prop := address.toList.count ':' = 1

instance (address : String) : Decidable (OneColon address) := inferInstanceAs (Decidable (_ = _))

/-- The bytes of the record of an address. -/
def recordLength (address : String) : ℕ :=
  (padIp (address.toList.takeWhile (· ≠ ':'))).length + LEN_PORT

/-! ## Where the addresses come from -/

/-- The addresses that a message puts into the list are of a kind. -/
structure Brings (P : String → Prop) (message : Message) : Prop where
  register : message.code = COMMAND_REGISTER → P (addressOf message.ip message.port)
  inform : message.code = COMMAND_INFORM →
    ∀ address, recordAddress message.payload 0 = .ok address → P address

def Handler.Brings (P : String → Prop) : Handler → Prop
  | .idle => True
  | .expiring message => Peer.Brings P message
  | .registering newAddress => P newAddress
  | .informing address => P address

/-- So are those of every message that is received and of every record that is merged. -/
def Carries (P : String → Prop) : Label → Prop
  | .receive _ bytesMessage =>
    ∀ message, parseMessage (bytesMessage.take MSG_MAX) = .ok message → Brings P message
  | .merge data _ =>
    ∀ i ∈ (List.range (data.length ⌈/⌉ (LEN_IP + LEN_PORT))).map (· * (LEN_IP + LEN_PORT)),
      ∀ address, recordAddress data i = .ok address → P address
  | _ => True

structure AllAddresses (P : String → Prop) (s : State) : Prop where
  network : ∀ entry ∈ s.network, P entry.1
  handlers : ∀ t, (s.handlers t).Brings P

section Addresses

variable {P : String → Prop}

theorem insertNew_all {network : Network} (h : ∀ entry ∈ network, P entry.1) {address : String}
    (haddress : P address) (now : ℚ) :
    ∀ entry ∈ UniqueKeys.insertNew network address now, P entry.1 := by
  unfold UniqueKeys.insertNew
  split
  case isTrue => exact h
  case isFalse =>
    intro entry hentry
    rcases List.mem_append.mp hentry with hentry | hentry
    · exact h entry hentry
    · rw [List.mem_singleton.mp hentry]
      exact haddress

theorem mergeLoop_all {data : Bytes} {clock : ℕ → ℚ} {is : List ℕ}
    (hdata : ∀ i ∈ is, ∀ address, recordAddress data i = .ok address → P address)
    {network : Network} (h : ∀ entry ∈ network, P entry.1) :
    ∀ entry ∈ (mergeLoop data clock is network).1, P entry.1 := by
  induction is generalizing network with
  | nil => exact h
  | cons i is ih =>
    have hrest := fun j hj => hdata j (List.mem_cons_of_mem _ hj)
    rw [mergeLoop]
    cases haddress : recordAddress data i with
    | error e => exact h
    | ok address =>
      have hinsert := insertNew_all h (hdata i List.mem_cons_self address haddress) (clock i)
      unfold UniqueKeys.insertNew at hinsert
      dsimp only
      split
      case isTrue hnew =>
        rw [if_neg hnew] at hinsert
        exact ih hrest hinsert
      case isFalse => exact ih hrest h

theorem dispatch_brings {message : Message} (h : Brings P message) :
    (dispatch message).Brings P := by
  unfold dispatch
  split
  case isTrue => trivial
  case isFalse =>
    split
    case isTrue hcode =>
      split
      case isTrue => trivial
      case isFalse => exact h.register hcode
    case isFalse =>
      split
      case isTrue hcode =>
        split
        case h_1 => trivial
        case h_2 address haddress => exact h.inform hcode address haddress
      case isFalse => trivial

/-- A handler goes on, the others stay where they are. -/
theorem update_brings {handlers : ℕ → Handler} (h : ∀ t, (handlers t).Brings P) (t : ℕ)
    {handler : Handler} (hhandler : handler.Brings P) :
    ∀ t', (Function.update handlers t handler t').Brings P := by
  intro t'
  by_cases ht : t' = t
  · rw [ht, Function.update_self]
    exact hhandler
  · rw [Function.update_of_ne ht]
    exact h t'

theorem step_allAddresses {s t : State} {a : Label} (h : AllAddresses P s) (ha : Carries P a)
    (hstep : step s a = some t) : AllAddresses P t := by
  cases a with
  | receive thread bytesMessage =>
    simp only [step] at hstep
    split at hstep
    · split at hstep
      case h_1 =>
        cases hstep
        exact h
      case h_2 message hparse =>
        cases hstep
        exact ⟨h.network, update_brings h.handlers thread (ha message hparse)⟩
    · cases hstep
  | expire thread now =>
    simp only [step] at hstep
    split at hstep <;> cases hstep
    case h_1 message hhandler =>
      have hmessage : Brings P message := by
        have hbrings := h.handlers thread
        rw [hhandler] at hbrings
        exact hbrings
      refine ⟨fun entry hentry => ?_, update_brings h.handlers thread (dispatch_brings hmessage)⟩
      rw [expirySection_eq] at hentry
      exact h.network entry ((survivors_sublist _ _ _).subset hentry)
  | register thread now =>
    simp only [step] at hstep
    split at hstep <;> cases hstep
    case h_1 newAddress hhandler =>
      have hnew : P newAddress := by
        have hbrings := h.handlers thread
        rw [hhandler] at hbrings
        exact hbrings
      refine ⟨?_, update_brings h.handlers thread trivial⟩
      rw [registerSection_network]
      exact insertNew_all h.network hnew now
  | inform thread now =>
    simp only [step] at hstep
    split at hstep <;> cases hstep
    case h_1 address hhandler =>
      have hnew : P address := by
        have hbrings := h.handlers thread
        rw [hhandler] at hbrings
        exact hbrings
      exact ⟨insertNew_all h.network hnew now, update_brings h.handlers thread trivial⟩
  | merge data clock =>
    cases hstep
    exact ⟨mergeLoop_all ha h.network, h.handlers⟩

theorem start_allAddresses {myAddress : String} (h : P myAddress) :
    AllAddresses P (start myAddress) where
  network entry hentry := by
    rw [List.mem_singleton.mp hentry]
    exact h
  handlers _ := trivial

theorem run_allAddresses {myAddress : String} (h : P myAddress) {labels : List Label} {s : State}
    (hrun : labels.foldlM step (start myAddress) = some s)
    (hlabels : Transition.Respects step (fun _ => Carries P) (start myAddress) labels) :
    AllAddresses P s :=
  hlabels.invariant (fun _ _ _ hs ha hstep => step_allAddresses hs ha hstep)
    (start_allAddresses h) hrun

theorem isAddress_recordAddress {data : Bytes} {i : ℕ} {address : String}
    (h : recordAddress data i = .ok address) : IsAddress address := by
  obtain ⟨ip, -, h⟩ := ok_of_bind h
  obtain ⟨port, hport, h⟩ := ok_of_bind h
  cases h
  exact ⟨_, port, unpack_lt hport, rfl⟩

/-- Everything that gets into the list has been printed as an address. -/
theorem carries_isAddress (a : Label) : Carries IsAddress a := by
  cases a with
  | receive thread bytesMessage =>
    intro message hparse
    refine ⟨fun _ => ⟨_, _, (parseMessage_fields hparse).port, rfl⟩, fun _ address haddress => ?_⟩
    exact isAddress_recordAddress haddress
  | merge data clock =>
    intro i _ address haddress
    exact isAddress_recordAddress haddress
  | expire => trivial
  | register => trivial
  | inform => trivial

end Addresses

/-! ## The payload -/

theorem oneColon_addressOf_iff (ip : String) (port : ℕ) :
    OneColon (addressOf ip port) ↔ ':' ∉ ip.toList := by
  rw [OneColon, toList_addressOf, List.count_append, List.count_cons_self,
    List.count_eq_zero.mpr (colon_not_mem_toDigits port), ← List.count_eq_zero]
  omega

theorem recordLength_addressOf {ip : String} (h : ':' ∉ ip.toList) (port : ℕ) :
    recordLength (addressOf ip port) = (padIp ip.toList).length + LEN_PORT := by
  have hip : ∀ c ∈ ip.toList, decide (c ≠ ':') = true := by
    intro c hc
    exact decide_eq_true fun heq => h (heq ▸ hc)
  rw [recordLength, toList_addressOf, List.takeWhile_append_of_pos hip,
    List.takeWhile_cons_of_neg (by decide), List.append_nil]

/-- An address is taken apart if it has one colon. -/
theorem packPeer_oneColon {address : String} (h : IsAddress address) (hcolon : OneColon address) :
    ∃ record, packPeer address = .ok record ∧ record.length = recordLength address := by
  obtain ⟨ip, port, hport, rfl⟩ := h
  rw [oneColon_addressOf_iff] at hcolon
  refine ⟨_, packPeer_addressOf hcolon hport, ?_⟩
  rw [recordLength_addressOf hcolon, List.length_append, BigEndian.length_encode, LEN_PORT]

theorem oneColon_of_packPeer {address : String} (h : IsAddress address) {record : Bytes}
    (hrecord : packPeer address = .ok record) : OneColon address := by
  obtain ⟨ip, port, hport, rfl⟩ := h
  rw [oneColon_addressOf_iff]
  intro hcolon
  rw [packPeer_colon hcolon] at hrecord
  cases hrecord

theorem records_of_oneColon {network : Network} (h : ∀ entry ∈ network, IsAddress entry.1)
    (hcolon : ∀ entry ∈ network, OneColon entry.1) :
    ∃ records, (network.mapM fun entry => packPeer entry.1) = .ok records ∧
      records.flatten.length = (network.map fun entry => recordLength entry.1).sum := by
  induction network with
  | nil => exact ⟨[], rfl, rfl⟩
  | cons entry network ih =>
    rw [List.forall_mem_cons] at h hcolon
    obtain ⟨record, hrecord, hlength⟩ := packPeer_oneColon h.1 hcolon.1
    obtain ⟨records, hrecords, hsum⟩ := ih h.2 hcolon.2
    refine ⟨record :: records, ?_, ?_⟩
    · rw [List.mapM_cons, hrecord, hrecords]
      rfl
    · rw [List.flatten_cons, List.length_append, hlength, hsum, List.map_cons, List.sum_cons]

theorem oneColon_of_records {network : Network} (h : ∀ entry ∈ network, IsAddress entry.1)
    {records : List Bytes} (hrecords : (network.mapM fun entry => packPeer entry.1) = .ok records) :
    ∀ entry ∈ network, OneColon entry.1 := by
  induction network generalizing records with
  | nil => exact fun entry hentry => absurd hentry List.not_mem_nil
  | cons entry network ih =>
    rw [List.forall_mem_cons] at h ⊢
    rw [List.mapM_cons] at hrecords
    obtain ⟨record, hrecord, hrest⟩ := ok_of_bind hrecords
    obtain ⟨rest, hrest, -⟩ := ok_of_bind hrest
    exact ⟨oneColon_of_packPeer h.1 hrecord, ih h.2 hrest⟩

/-- The reply about a list of peers can be made: each address has one colon, and the records do not
need too many blocks. -/
structure Listable (network : Network) : Prop where
  oneColon : ∀ entry ∈ network, OneColon entry.1
  fits : (network.map fun entry => recordLength entry.1).sum ≤ sendableLength * (2 ^ 32 - 1)

theorem listable_iff {network : Network} (h : ∀ entry ∈ network, IsAddress entry.1) :
    (∃ records, (network.mapM fun entry => packPeer entry.1) = .ok records ∧
      (makeBlocks records.flatten).1 < 2 ^ 32) ↔ Listable network := by
  constructor
  · intro ⟨records, hrecords, hfits⟩
    have hcolon := oneColon_of_records h hrecords
    obtain ⟨records', hrecords', hlength⟩ := records_of_oneColon h hcolon
    rw [hrecords, Except.ok.injEq] at hrecords'
    rw [makeBlocks_lt_iff, hrecords', hlength] at hfits
    exact ⟨hcolon, hfits⟩
  · intro ⟨hcolon, hfits⟩
    obtain ⟨records, hrecords, hlength⟩ := records_of_oneColon h hcolon
    refine ⟨records, hrecords, ?_⟩
    rw [makeBlocks_lt_iff, hlength]
    exact hfits

/-! ## All or nothing -/

section Register

variable (env : Surroundings) (network : Network) (bytesMessage : Bytes) (message : Message)

/-- The new address is listed and the first reply is the list. -/
def Registered : Prop :=
  ∃ r later records,
    (handle env bytesMessage ⟨network, []⟩).network =
      left env message network ++ [(addressOf message.ip message.port, env.registered)] ∧
    (handle env bytesMessage ⟨network, []⟩).sent = r :: later ∧
    Complete env.sha r ∧ r.status = STATUS_OK ∧
    ((handle env bytesMessage ⟨network, []⟩).network.mapM fun entry => packPeer entry.1) =
      .ok records ∧ r.payload = records.flatten

/-- The list is as the expiry has left it and the reply is an error. -/
def Refused : Prop :=
  (handle env bytesMessage ⟨network, []⟩).network = left env message network ∧
  ∃ r, (handle env bytesMessage ⟨network, []⟩).sent = [r] ∧ Complete env.sha r ∧
    r.status ≠ STATUS_OK

/-- A registration that nothing speaks against. -/
structure AsksIn : Prop where
  length : message.payload.length = message.payloadLength
  ipGiven : message.ip ≠ ""
  portGiven : message.port ≠ 0
  new : addressOf message.ip message.port ∉ (left env message network).map Prod.fst

variable {env network bytesMessage message}

theorem expired_eq : expired env message ⟨network, []⟩ = ⟨left env message network, []⟩ :=
  congrArg (Session.mk · []) (expirySection_eq _ _ _)

theorem handle_returned {s s' : Session} (h : handleBody env bytesMessage s = (s', .ok ())) :
    handle env bytesMessage s = s' := by
  rw [handle, h]

/-- An exception is answered. -/
theorem handle_raised {s s' : Session} {e : PyError}
    (h : handleBody env bytesMessage s = (s', .error e)) :
    ∃ r, Complete env.sha r ∧ r.status = STATUS_OTHER ∧
      handle env bytesMessage s = { s' with sent := s'.sent ++ [r] } := by
  have hshort := env.describe_short e
  obtain ⟨r, hcomplete, ⟨hstatus, -⟩, hsent⟩ := handleError_sent env STATUS_OTHER (by decide)
    s!"Something went wrong. {env.describe e}" (by simp [toString]; omega) s'
  refine ⟨r, hcomplete, hstatus, ?_⟩
  rw [handle, h]
  simp only [hsent]

theorem refused_of_error {status : ℕ} {msgStr : String}
    (h : handleBody env bytesMessage ⟨network, []⟩ =
      handleError env status msgStr ⟨left env message network, []⟩)
    (hstatus : status < 2 ^ 32) (hne : status ≠ STATUS_OK)
    (hlength : msgStr.toList.length ≤ 2 ^ 24) : Refused env network bytesMessage message := by
  obtain ⟨r, hcomplete, ⟨hr, -⟩, hsent⟩ := handleError_sent env status hstatus msgStr hlength
    ⟨left env message network, []⟩
  rw [hsent] at h
  rw [Refused, handle_returned h]
  exact ⟨rfl, r, rfl, hcomplete, hr ▸ hne⟩

/-- The entry is listed, and the only reply is an error. -/
theorem not_done_of_raised {entry : Entry} {e : PyError}
    (h : handleBody env bytesMessage ⟨network, []⟩ =
      (⟨left env message network ++ [entry], []⟩, .error e)) :
    ¬(Registered env network bytesMessage message ∨ Refused env network bytesMessage message) := by
  obtain ⟨r, -, hstatus, hhandle⟩ := handle_raised h
  rw [Registered, Refused, hhandle]
  rintro (⟨r', _, _, -, hsent, -, hok, -⟩ | ⟨hnetwork, -⟩)
  · cases hsent
    rw [hstatus] at hok
    exact absurd hok (by decide)
  · exact absurd hnetwork (by simp)

theorem registered_of_replied {records : List Bytes} {messages : List Bytes}
    {result : Except PyError Unit}
    (h : handleBody env bytesMessage ⟨network, []⟩ =
      (⟨left env message network ++ [(addressOf message.ip message.port, env.registered)],
        [⟨STATUS_OK, records.flatten, messages⟩]⟩, result))
    (hcomplete : Complete env.sha ⟨STATUS_OK, records.flatten, messages⟩)
    (hrecords : ((left env message network ++
      [(addressOf message.ip message.port, env.registered)]).mapM fun entry => packPeer entry.1) =
        .ok records) : Registered env network bytesMessage message := by
  cases result with
  | ok =>
    rw [Registered, handle_returned h]
    exact ⟨_, [], records, rfl, rfl, hcomplete, rfl, hrecords, rfl⟩
  | error e =>
    obtain ⟨r, -, -, hhandle⟩ := handle_raised h
    rw [Registered, hhandle]
    exact ⟨_, [r], records, rfl, rfl, hcomplete, rfl, hrecords, rfl⟩

/-- A registration is done as a whole exactly if the reply about the list with the new peer can be
made. -/
theorem done_iff (hparse : parseMessage (bytesMessage.take MSG_MAX) = .ok message)
    (hcode : message.code = COMMAND_REGISTER) :
    (Registered env network bytesMessage message ∨ Refused env network bytesMessage message) ↔
      (AsksIn env network message → ∃ records, ((left env message network ++
        [(addressOf message.ip message.port, env.registered)]).mapM fun entry => packPeer entry.1) =
          .ok records ∧ (makeBlocks records.flatten).1 < 2 ^ 32) := by
  have hfields := parseMessage_fields hparse
  by_cases hlength : message.payload.length = message.payloadLength
  case neg =>
    have hbody := handleBody_malformed env ⟨network, []⟩ hparse hlength
    rw [expired_eq] at hbody
    exact iff_of_true (.inr (refused_of_error hbody (by decide) (by decide) (by decide)))
      fun h => absurd h.length hlength
  case pos =>
    have hbody := handleBody_register env ⟨network, []⟩ hparse hlength hcode
    rw [expired_eq, register] at hbody
    by_cases hip : message.ip = ""
    · rw [if_pos hip] at hbody
      exact iff_of_true (.inr (refused_of_error hbody (by decide) (by decide) (by decide)))
        fun h => absurd hip h.ipGiven
    by_cases hport : message.port = 0
    · rw [if_neg hip, if_pos hport] at hbody
      exact iff_of_true (.inr (refused_of_error hbody (by decide) (by decide) (by decide)))
        fun h => absurd hport h.portGiven
    rw [if_neg hip, if_neg hport] at hbody
    rcases registerSection_cases (addressOf message.ip message.port) env.registered
        (left env message network) with
      ⟨hold, hsection⟩ | ⟨hnew, ⟨e, herror, hsection⟩ | ⟨records, hrecords, hsection⟩⟩
    · simp only [hsection] at hbody
      have hshort := length_addressOf_le hfields.ip hfields.port
      refine iff_of_true (.inr (refused_of_error hbody (by decide) (by decide) ?_))
        fun h => absurd hold h.new
      simp [toString]
      omega
    · simp only [hsection] at hbody
      refine iff_of_false (not_done_of_raised hbody) fun h => ?_
      obtain ⟨records, hrecords, -⟩ := h ⟨hlength, hip, hport, hnew⟩
      rw [herror] at hrecords
      cases hrecords
    · simp only [hsection] at hbody
      rcases reply_cases env STATUS_OK (by decide) records.flatten
          ⟨left env message network ++ [(addressOf message.ip message.port, env.registered)], []⟩ with
        ⟨hfits, messages, hcomplete, hreply⟩ | ⟨hlong, e, hreply⟩
      · simp only [hreply] at hbody
        exact iff_of_true (.inl (registered_of_replied hbody hcomplete hrecords))
          fun _ => ⟨records, hrecords, hfits⟩
      · simp only [hreply] at hbody
        refine iff_of_false (not_done_of_raised hbody) fun h => hlong ?_
        obtain ⟨records', hrecords', hfits⟩ := h ⟨hlength, hip, hport, hnew⟩
        rw [hrecords, Except.ok.injEq] at hrecords'
        rw [hrecords']
        exact hfits

/-- The list after a registration, where it is done. -/
def withNew (env : Surroundings) (network : Network) (message : Message) : Network :=
  left env message network ++ [(addressOf message.ip message.port, env.registered)]

theorem withNew_all {P : String → Prop} (h : ∀ entry ∈ network, P entry.1)
    (hnew : P (addressOf message.ip message.port)) :
    ∀ entry ∈ withNew env network message, P entry.1 := by
  intro entry hentry
  rcases List.mem_append.mp hentry with hentry | hentry
  · exact h entry ((survivors_sublist _ _ _).subset hentry)
  · rw [List.mem_singleton.mp hentry]
    exact hnew

/-- In every state that a peer gets into, a registration is done as a whole exactly if it is
refused at once, or each address in the list that it makes has one colon. So they all are as long as
no ip with a colon comes in. -/
theorem registration_all_or_nothing (env : Surroundings) (labels : List Label) (s : State)
    (hrun : labels.foldlM step (start (myAddress env)) = some s) :
    (∀ bytesMessage message, parseMessage (bytesMessage.take MSG_MAX) = .ok message →
      message.code = COMMAND_REGISTER →
      (Registered env s.network bytesMessage message ∨ Refused env s.network bytesMessage message ↔
        (AsksIn env s.network message → Listable (withNew env s.network message)))) ∧
    (OneColon (myAddress env) →
      Transition.Respects step (fun _ => Carries OneColon) (start (myAddress env)) labels →
      ∀ bytesMessage message, parseMessage (bytesMessage.take MSG_MAX) = .ok message →
        message.code = COMMAND_REGISTER → OneColon (addressOf message.ip message.port) →
        ((withNew env s.network message).map fun entry => recordLength entry.1).sum ≤
          sendableLength * (2 ^ 32 - 1) →
        Registered env s.network bytesMessage message ∨
          Refused env s.network bytesMessage message) := by
  have hown : IsAddress (myAddress env) := ⟨env.ip, env.port, by have := env.port_lt; omega, rfl⟩
  have haddresses := run_allAddresses hown hrun
    (Transition.respects_of_forall (fun _ a => carries_isAddress a) labels _)
  have hdone : ∀ bytesMessage message, parseMessage (bytesMessage.take MSG_MAX) = .ok message →
      message.code = COMMAND_REGISTER →
      (Registered env s.network bytesMessage message ∨ Refused env s.network bytesMessage message ↔
        (AsksIn env s.network message → Listable (withNew env s.network message))) := by
    intro bytesMessage message hparse hcode
    refine (done_iff hparse hcode).trans (imp_congr_right fun _ => listable_iff ?_)
    exact withNew_all haddresses.network ⟨_, _, (parseMessage_fields hparse).port, rfl⟩
  refine ⟨hdone, fun hcolon hlabels bytesMessage message hparse hcode hnew hfits => ?_⟩
  refine (hdone bytesMessage message hparse hcode).mpr fun _ => ⟨?_, hfits⟩
  exact withNew_all (run_allAddresses hcolon hrun hlabels).network hnew

end Register

section Colon

/-- The registration of the peer at port 7 of the ip with these bytes. -/
def registration (ip : Bytes) : Bytes :=
  ip ++ List.replicate (16 - ip.length) 0 ++ [0, 0, 0, 7, 0, 0, 0, 1, 0, 0, 0, 0]

/-- A peer registers and then another one does. -/
theorem registration_done : ∃ s, List.foldlM step (start (myAddress unreachable))
      [.receive 0 (registration [49, 48]), .expire 0 100, .register 0 100] = some s ∧
    (Registered unreachable s.network thirdPeer ⟨"10.0.0.3", 9, 1, 0, []⟩ ∨
      Refused unreachable s.network thirdPeer ⟨"10.0.0.3", 9, 1, 0, []⟩) := by
  have hfirst : parseMessage ((registration [49, 48]).take MSG_MAX) = .ok ⟨"10", 7, 1, 0, []⟩ := by
    decide +kernel
  have hruns : (List.foldlM step (start (myAddress unreachable))
      [.receive 0 (registration [49, 48]), .expire 0 100, .register 0 100]).map State.network =
      some [("10.0.0.1:5", -1), ("10:7", 100)] := by
    decide +kernel
  obtain ⟨s, hrun, hnetwork⟩ := Option.map_eq_some_iff.mp hruns
  refine ⟨s, hrun, (registration_all_or_nothing unreachable _ s hrun).2 (by decide +kernel) ?_
    thirdPeer ⟨"10.0.0.3", 9, 1, 0, []⟩ (by decide +kernel) rfl (by decide +kernel) ?_⟩
  · refine ⟨fun message hparse => ?_, fun _ _ => ⟨trivial, fun _ _ => ⟨trivial, fun _ _ => trivial⟩⟩⟩
    rw [hfirst, Except.ok.injEq] at hparse
    rw [← hparse]
    exact ⟨fun _ => by decide +kernel, fun hcode => absurd hcode (by decide)⟩
  · rw [hnetwork]
    decide +kernel

/-- After a registration from `a:b`, which is put into the list, 10.0.0.3:9 is put into it too and
told of an error. -/
theorem registration_half_done : ¬∀ (env : Surroundings) (labels : List Label) (s : State),
    labels.foldlM step (start (myAddress env)) = some s →
    ∀ bytesMessage message, parseMessage (bytesMessage.take MSG_MAX) = .ok message →
      message.code = COMMAND_REGISTER →
      Registered env s.network bytesMessage message ∨
        Refused env s.network bytesMessage message := by
  intro h
  have hruns : (List.foldlM step (start (myAddress unreachable))
      [.receive 0 (registration [97, 58, 98]), .expire 0 100, .register 0 100]).map State.network =
      some [("10.0.0.1:5", -1), ("a:b:7", 100)] := by
    decide +kernel
  obtain ⟨s, hrun, hnetwork⟩ := Option.map_eq_some_iff.mp hruns
  have hparse : parseMessage (thirdPeer.take MSG_MAX) = .ok ⟨"10.0.0.3", 9, 1, 0, []⟩ := by
    decide +kernel
  have hdone := (done_iff hparse rfl).mp (h unreachable _ s hrun thirdPeer _ hparse rfl)
  rw [hnetwork] at hdone
  obtain ⟨records, hrecords, -⟩ := hdone
    ⟨rfl, by decide, by decide, by decide +kernel⟩
  have hraised : ((left unreachable ⟨"10.0.0.3", 9, 1, 0, []⟩
      [("10.0.0.1:5", -1), ("a:b:7", 100)] ++ [(addressOf "10.0.0.3" 9, unreachable.registered)]).mapM
        fun entry : Entry => packPeer entry.1) = .error .valueError := by
    decide +kernel
  exact absurd (hraised.symm.trans hrecords) nofun

end Colon

end CompSys.Peer
