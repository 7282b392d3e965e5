import CompSys.PeerHandle

/-!
# Expiry in the network list of the Python peer of A4

Messages are handled one after the other by a clock that never goes back. What keeps a
member in the list is the time at which it was added: the assignment that should refresh
the time of a member that sends a message raises, and nothing is removed by that message.
-/
namespace CompSys.Peer

/-- A message with what its handler meets. -/
structure Event where
  env : Surroundings
  message : Bytes

def networkStep (network : Network) (event : Event) : Network :=
  (handle event.env event.message ⟨network, []⟩).network

/-- The list after messages that are handled one at a time. -/
def networkAfter (network : Network) (events : List Event) : Network :=
  events.foldl networkStep network

/-- The address that a message gives as its sender's. -/
def sender (event : Event) : Option String :=
  match parseMessage (event.message.take MSG_MAX) with
  | .ok message => some (addressOf message.ip message.port)
  | .error _ => none

/-- The clock never goes back. -/
structure Timed (events : List Event) : Prop where
  within : ∀ event ∈ events, event.env.now ≤ event.env.registered
  between : events.Pairwise fun event later => event.env.registered ≤ later.env.now

/-- A listed member that has sent a message in the last 60 seconds is still listed. -/
def Retained (network : Network) (events : List Event) : Prop :=
  ∀ before event after, events = before ++ event :: after → ∀ address,
    address ∈ (networkAfter network before).map Prod.fst →
    (∃ earlier ∈ before ++ [event], sender earlier = some address ∧
      event.env.now - earlier.env.now ≤ 60) →
    address ∈ (networkAfter network (before ++ [event])).map Prod.fst

/-- No message comes from a listed member other than the peer itself. -/
def UnlistedSenders (myAddress : String) (network : Network) (events : List Event) : Prop :=
  ∀ before event after, events = before ++ event :: after → ∀ address,
    sender event = some address → address ∈ (networkAfter network before).map Prod.fst →
    address = myAddress

/-! ## What a message does to the list -/

@[simp] theorem reply_network (env : Surroundings) (status : Nat) (toSend : Bytes) (s : Session) :
    (reply env status toSend s).1.network = s.network := rfl

@[simp] theorem handleError_network (env : Surroundings) (status : Nat) (msgStr : String)
    (s : Session) : (handleError env status msgStr s).1.network = s.network := rfl

theorem handleRequest_network (env : Surroundings) (request : Bytes) (s : Session) :
    (handleRequest env request s).1.network = s.network := by
  unfold handleRequest
  split
  case h_1 => rfl
  case h_2 =>
    simp only
    split
    · rfl
    · split
      · rfl
      · split
        · rfl
        · split
          · rfl
          · split
            case h_1 => rfl
            case h_2 => split <;> rfl

theorem register_network (env : Surroundings) (ip : String) (port : Nat) (s : Session) :
    (register env ip port s).1.network =
      if ip = "" ∨ port = 0 then s.network
      else UniqueKeys.insertNew s.network (addressOf ip port) env.registered := by
  unfold register
  by_cases hip : ip = ""
  · rw [if_pos hip, if_pos (.inl hip), handleError_network]
  · by_cases hport : port = 0
    · rw [if_neg hip, if_pos hport, if_pos (.inr hport), handleError_network]
    · rw [if_neg hip, if_neg hport, if_neg (not_or.mpr ⟨hip, hport⟩), ← registerSection_network]
      simp only
      generalize registerSection (addressOf ip port) env.registered s.network = result
      obtain ⟨network, payload⟩ := result
      cases payload with
      | error e => rfl
      | ok answer =>
        cases answer with
        | none => rfl
        | some payload =>
          have hreply := reply_network env STATUS_OK payload { s with network }
          simp only
          generalize reply env STATUS_OK payload { s with network } = sent at hreply ⊢
          obtain ⟨s', result⟩ := sent
          cases result <;> exact hreply

theorem addToNetwork_network (env : Surroundings) (bytesMessage : Bytes) (s : Session) :
    (addToNetwork env bytesMessage s).1.network =
      match recordAddress bytesMessage 0 with
      | .error _ => s.network
      | .ok address => UniqueKeys.insertNew s.network address env.registered := by
  unfold addToNetwork
  cases recordAddress bytesMessage 0 <;> rfl

/-- The section that follows the expiry, as `dispatch` tells. -/
def sectionAfter (message : Message) (registered : ℚ) (network : Network) : Network :=
  match dispatch message with
  | .registering address => UniqueKeys.insertNew network address registered
  | .informing address => UniqueKeys.insertNew network address registered
  | _ => network

theorem handle_network (env : Surroundings) (bytesMessage : Bytes) (s : Session) :
    (handle env bytesMessage s).network = (handleBody env bytesMessage s).1.network := by
  unfold handle
  split
  case h_1 heq => rw [heq]
  case h_2 heq =>
    rw [heq]
    exact handleError_network env _ _ _

/-- A message runs the section of the expiry and then the one that `dispatch` names. -/
theorem networkStep_eq (network : Network) (event : Event) :
    networkStep network event =
      match parseMessage (event.message.take MSG_MAX) with
      | .error _ => network
      | .ok message => sectionAfter message event.env.registered
          (expirySection (addressOf message.ip message.port) event.env.now network) := by
  rw [networkStep, handle_network]
  cases hparse : parseMessage (event.message.take MSG_MAX) with
  | error e =>
    rw [handleBody, hparse]
  | ok message =>
    by_cases hlength : message.payload.length = message.payloadLength
    case neg =>
      rw [handleBody_malformed event.env ⟨network, []⟩ hparse hlength, handleError_network]
      simp only [sectionAfter, dispatch, if_pos hlength, ne_eq, expired]
    case pos =>
      by_cases hregister : message.code = COMMAND_REGISTER
      case pos =>
        rw [handleBody_register event.env ⟨network, []⟩ hparse hlength hregister, register_network]
        simp only [sectionAfter, dispatch, if_neg (not_not.mpr hlength), if_pos hregister]
        split <;> rfl
      case neg =>
        by_cases hinform : message.code = COMMAND_INFORM
        case pos =>
          rw [handleBody_addToNetwork event.env ⟨network, []⟩ hparse hlength hinform,
            addToNetwork_network]
          simp only [sectionAfter, dispatch, if_neg (not_not.mpr hlength), if_neg hregister,
            if_pos hinform]
          cases recordAddress message.payload 0 <;> rfl
        case neg =>
          rw [handleBody_command event.env ⟨network, []⟩ hparse hlength]
          simp only [sectionAfter, dispatch, if_neg (not_not.mpr hlength), if_neg hregister,
            if_neg hinform]
          split
          · exact handleError_network event.env _ _ _
          · exact handleRequest_network event.env _ _

/-! ## What stays and what comes -/

theorem mem_sectionAfter {message : Message} {registered : ℚ} {network : Network} {entry : Entry}
    (h : entry ∈ network) : entry ∈ sectionAfter message registered network := by
  unfold sectionAfter
  split
  · exact UniqueKeys.mem_insertNew h _ registered
  · exact UniqueKeys.mem_insertNew h _ registered
  · exact h

/-- What a message adds has the time of its second section. -/
theorem of_mem_sectionAfter {message : Message} {registered : ℚ} {network : Network}
    {entry : Entry} (h : entry ∈ sectionAfter message registered network) :
    entry ∈ network ∨ entry.2 = registered := by
  have hinsert : ∀ address, entry ∈ UniqueKeys.insertNew network address registered →
      entry ∈ network ∨ entry.2 = registered := by
    intro address hmem
    unfold UniqueKeys.insertNew at hmem
    split at hmem
    · exact .inl hmem
    · rcases List.mem_append.mp hmem with hold | hnew
      · exact .inl hold
      · exact .inr (by rw [List.mem_singleton.mp hnew])
  unfold sectionAfter at h
  split at h
  · exact hinsert _ h
  · exact hinsert _ h
  · exact .inl h

theorem networkStep_mem {network : Network} {event : Event} {entry : Entry} (h : entry ∈ network)
    (hrecent : entry.2 = -1 ∨ event.env.now - entry.2 ≤ 60) :
    entry ∈ networkStep network event := by
  rw [networkStep_eq]
  split
  · exact h
  · rw [expirySection_eq]
    exact mem_sectionAfter (mem_survivors h _ hrecent)

theorem of_mem_networkStep {network : Network} {event : Event} {entry : Entry}
    (h : entry ∈ networkStep network event) :
    entry ∈ network ∨ entry.2 = event.env.registered := by
  rw [networkStep_eq] at h
  split at h
  · exact .inl h
  · rcases of_mem_sectionAfter h with hold | hnew
    · rw [expirySection_eq] at hold
      exact .inl ((survivors_sublist _ _ _).subset hold)
    · exact .inr hnew

theorem networkStep_sound {myAddress : String} {network : Network}
    (h : SoundNetwork myAddress network) (event : Event) :
    SoundNetwork myAddress (networkStep network event) := by
  rw [networkStep_eq]
  split
  case h_1 => exact h
  case h_2 message _ =>
    have hexpired := expirySection_sound h (addressOf message.ip message.port) event.env.now
    unfold sectionAfter
    split
    · exact hexpired.insertNew _ _
    · exact hexpired.insertNew _ _
    · exact hexpired

/-! ## Runs -/

theorem networkAfter_append (network : Network) (events : List Event) (event : Event) :
    networkAfter network (events ++ [event]) = networkStep (networkAfter network events) event := by
  rw [networkAfter, List.foldl_append]
  rfl

theorem networkAfter_sound {myAddress : String} {network : Network}
    (h : SoundNetwork myAddress network) (events : List Event) :
    SoundNetwork myAddress (networkAfter network events) := by
  induction events using List.reverseRecOn with
  | nil => exact h
  | append_singleton events event ih =>
    rw [networkAfter_append]
    exact networkStep_sound ih event

/-- The peer's own entry is the only one with its address. -/
theorem SoundNetwork.eq_own {myAddress : String} {network : Network}
    (h : SoundNetwork myAddress network) {entry : Entry} (hentry : entry ∈ network)
    (hown : entry.1 = myAddress) : entry = (myAddress, -1) :=
  List.inj_on_of_nodup_map h.unique hentry h.own hown

/-- Nothing has been heard of a member since it was added. -/
def Silent (myAddress : String) (events : List Event) (network : Network) : Prop :=
  ∀ entry ∈ network, entry = (myAddress, -1) ∨
    ∀ event ∈ events, sender event = some entry.1 → event.env.now ≤ entry.2

/-- One more message, of which the sender is not listed. -/
theorem Silent.step {myAddress : String} {events : List Event} {network : Network} {event : Event}
    (h : Silent myAddress events network) (hsound : SoundNetwork myAddress network)
    (htimed : Timed (events ++ [event]))
    (hunlisted : ∀ address, sender event = some address → address ∈ network.map Prod.fst →
      address = myAddress) :
    Silent myAddress (events ++ [event]) (networkStep network event) := by
  intro entry hentry
  have hevent : event.env.now ≤ event.env.registered :=
    htimed.within event (List.mem_append_right _ List.mem_cons_self)
  rcases of_mem_networkStep hentry with hold | hnew
  · rcases h entry hold with hown | hsilent
    · exact .inl hown
    · by_cases hsender : sender event = some entry.1
      · exact .inl (hsound.eq_own hold (hunlisted _ hsender (List.mem_map_of_mem hold)))
      · right
        intro earlier hearlier hfrom
        rcases List.mem_append.mp hearlier with hmem | hlast
        · exact hsilent earlier hmem hfrom
        · rw [List.mem_singleton.mp hlast] at hfrom
          exact absurd hfrom hsender
  · right
    intro earlier hearlier _
    rw [hnew]
    rcases List.mem_append.mp hearlier with hmem | hlast
    · have hbefore : earlier.env.registered ≤ event.env.now :=
        (List.pairwise_append.mp htimed.between).2.2 earlier hmem event List.mem_cons_self
      exact (htimed.within earlier hearlier).trans (hbefore.trans hevent)
    · rw [List.mem_singleton.mp hlast]
      exact hevent

theorem Timed.append_left {events later : List Event} (h : Timed (events ++ later)) :
    Timed events where
  within := fun event hevent => h.within event (List.mem_append_left _ hevent)
  between := (List.pairwise_append.mp h.between).1

theorem networkAfter_silent {myAddress : String} {network : Network}
    (hsound : SoundNetwork myAddress network) (events : List Event) (htimed : Timed events)
    (hunlisted : UnlistedSenders myAddress network events) :
    Silent myAddress events (networkAfter network events) := by
  induction events using List.reverseRecOn with
  | nil => exact fun entry _ => .inr fun event hevent => absurd hevent List.not_mem_nil
  | append_singleton events event ih =>
    have hearlier : UnlistedSenders myAddress network events := by
      intro before event' after heq
      refine hunlisted before event' (after ++ [event]) ?_
      rw [heq, List.append_assoc]
      rfl
    rw [networkAfter_append]
    exact (ih htimed.append_left hearlier).step (networkAfter_sound hsound events) htimed
      (hunlisted events event [] rfl)

/-- If no message comes from a listed member, each member that has sent a message in the last
60 seconds is still listed after every message. -/
theorem retained_of_unlistedSenders (myAddress : String) (s : State) (events : List Event)
    (hs : Transition.Reachable (peer myAddress) s) (htimed : Timed events)
    (hunlisted : UnlistedSenders myAddress s.network events) : Retained s.network events := by
  have hsound : SoundNetwork myAddress s.network := reachable_sound hs
  intro before event after heq address haddress hrecent
  obtain ⟨entry, hentry, rfl⟩ := List.mem_map.mp haddress
  obtain ⟨earlier, hearlier, hsender, hago⟩ := hrecent
  have hbefore : Timed before := by
    rw [heq] at htimed
    exact htimed.append_left
  have hsilent := networkAfter_silent hsound before hbefore (by
    intro before' event' after' heq'
    refine hunlisted before' event' (after' ++ event :: after) ?_
    rw [heq, heq', List.append_assoc]
    rfl)
  have hkept : entry.2 = -1 ∨ event.env.now - entry.2 ≤ 60 := by
    rcases hsilent entry hentry with hown | hheard
    · rw [hown]
      exact .inl rfl
    · rcases List.mem_append.mp hearlier with hmem | hlast
      · have hle := hheard earlier hmem hsender
        exact .inr ((sub_le_sub_left hle event.env.now).trans hago)
      · rw [List.mem_singleton.mp hlast] at hsender
        have hown := (networkAfter_sound hsound before).eq_own hentry
          (hunlisted before event after heq _ hsender haddress)
        rw [hown]
        exact .inl rfl
  rw [networkAfter_append]
  exact List.mem_map_of_mem (networkStep_mem hentry hkept)

section Forgotten

/-- The peer at 10.0.0.1:5 at some time. It is only informed, so it hashes nothing. -/
def informedAt (time : ℚ) : Surroundings where
  sha := abcSha256
  shuffle _ blocks := blocks
  describe _ := ""
  ip := "10.0.0.1"
  port := 5
  connect _ _ := .ok ()
  files := ⟨"/", fun path => path, fun _ => false, fun _ => false, fun _ => .error .osError⟩
  currentlyRetreiving := []
  now := time
  registered := time
  perm_shuffle := unshuffled_perm
  describe_short := noText_short
  port_lt := samplePort_lt

/-- 10.0.0.3:9 informs of 10.0.0.2:7. -/
def informOfSecond : Bytes :=
  [49, 48, 46, 48, 46, 48, 46, 51, 0, 0, 0, 0, 0, 0, 0, 0, 0, 0, 0, 9,
    0, 0, 0, 3, 0, 0, 0, 20,
    49, 48, 46, 48, 46, 48, 46, 50, 0, 0, 0, 0, 0, 0, 0, 0, 0, 0, 0, 7]

/-- 10.0.0.2:7 informs of itself. -/
def informBySecond : Bytes :=
  [49, 48, 46, 48, 46, 48, 46, 50, 0, 0, 0, 0, 0, 0, 0, 0, 0, 0, 0, 7,
    0, 0, 0, 3, 0, 0, 0, 20,
    49, 48, 46, 48, 46, 48, 46, 50, 0, 0, 0, 0, 0, 0, 0, 0, 0, 0, 0, 7]

/-- 10.0.0.3:9 informs of itself. -/
def informOfThird : Bytes :=
  [49, 48, 46, 48, 46, 48, 46, 51, 0, 0, 0, 0, 0, 0, 0, 0, 0, 0, 0, 9,
    0, 0, 0, 3, 0, 0, 0, 20,
    49, 48, 46, 48, 46, 48, 46, 51, 0, 0, 0, 0, 0, 0, 0, 0, 0, 0, 0, 9]

/-- Twice the same information, by a peer that is not listed. -/
theorem retained_informed :
    Retained [("10.0.0.1:5", -1)]
      [⟨informedAt 1000, informOfSecond⟩, ⟨informedAt 1050, informOfSecond⟩] := by
  have htimed : Timed [⟨informedAt 1000, informOfSecond⟩, ⟨informedAt 1050, informOfSecond⟩] := by
    constructor
    · decide +kernel
    · decide +kernel
  have hsender : ∀ time, sender ⟨informedAt time, informOfSecond⟩ = some "10.0.0.3:9" := by
    have hparse : parseMessage (informOfSecond.take MSG_MAX) = .ok ⟨"10.0.0.3", 9, 3, 20,
        [49, 48, 46, 48, 46, 48, 46, 50, 0, 0, 0, 0, 0, 0, 0, 0, 0, 0, 0, 7]⟩ := by
      decide +kernel
    intro time
    rw [sender, hparse]
    decide +kernel
  have hlisted : networkAfter [("10.0.0.1:5", -1)] [⟨informedAt 1000, informOfSecond⟩] =
      [("10.0.0.1:5", -1), ("10.0.0.2:7", 1000)] := by
    simp only [networkAfter, List.foldl_cons, List.foldl_nil, networkStep_eq]
    decide +kernel
  refine retained_of_unlistedSenders "10.0.0.1:5" (start "10.0.0.1:5") _ (.start rfl) htimed ?_
  intro before event after heq address hfrom hmem
  exfalso
  cases before with
  | nil =>
    cases heq
    rw [hsender] at hfrom
    cases hfrom
    exact absurd hmem (by decide)
  | cons first before =>
    cases before with
    | nil =>
      cases heq
      rw [hsender] at hfrom
      cases hfrom
      rw [start, hlisted] at hmem
      exact absurd hmem (by decide)
    | cons second before =>
      have hlength := congrArg List.length heq
      simp at hlength

def forgottenEvents : List Event :=
  [⟨informedAt 1000, informOfSecond⟩, ⟨informedAt 1050, informBySecond⟩,
    ⟨informedAt 1065, informOfThird⟩]

/-- A member that has sent a message 15 seconds ago is removed. -/
theorem retained_forgotten :
    ¬∀ (myAddress : String) (s : State) (events : List Event),
      Transition.Reachable (peer myAddress) s → Timed events → Retained s.network events := by
  intro hclaim
  have htimed : Timed forgottenEvents := by
    constructor
    · decide +kernel
    · decide +kernel
  have hretained := hclaim "10.0.0.1:5" _ forgottenEvents (.start rfl) htimed
    [⟨informedAt 1000, informOfSecond⟩, ⟨informedAt 1050, informBySecond⟩]
    ⟨informedAt 1065, informOfThird⟩ [] rfl "10.0.0.2:7"
  have hlisted : networkAfter [("10.0.0.1:5", -1)]
      [⟨informedAt 1000, informOfSecond⟩, ⟨informedAt 1050, informBySecond⟩] =
        [("10.0.0.1:5", -1), ("10.0.0.2:7", 1000)] := by
    simp only [networkAfter, List.foldl_cons, List.foldl_nil, networkStep_eq]
    decide +kernel
  have hgone : networkAfter [("10.0.0.1:5", -1)] forgottenEvents =
      [("10.0.0.1:5", -1), ("10.0.0.3:9", 1065)] := by
    simp only [networkAfter, forgottenEvents, List.foldl_cons, List.foldl_nil, networkStep_eq]
    decide +kernel
  have hstill : "10.0.0.2:7" ∈ (networkAfter [("10.0.0.1:5", -1)] forgottenEvents).map Prod.fst := by
    refine hretained ?_ ⟨⟨informedAt 1050, informBySecond⟩, by simp, ?_, ?_⟩
    · rw [start, hlisted]
      decide
    · decide +kernel
    · decide +kernel
  rw [hgone] at hstill
  exact absurd hstill (by decide)

end Forgotten

end CompSys.Peer
