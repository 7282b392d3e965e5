import CompSys.PeerSystem

/-!
# When the Python peers of A4 come to agree

A peer that registers is told of all peers that its server knows, and these are told of it. So if
registrations are handled by peers that know all others, everybody gets to know everybody. Two
registrations at different peers at once can miss each other for good.
-/
namespace CompSys.PeerSystem

open Peer

def keys (node : Node) : List String := node.state.network.map Prod.fst

def Knows (w : World) (p q : String) : Prop := ∃ node, w.peers p = some node ∧ q ∈ keys node

/-! ## Runs in good order -/

/-- If the peer is running, it is of a kind. -/
def AtPeer (w : World) (p : String) (P : Node → Prop) : Prop := ∀ node, w.peers p = some node → P node

instance decidableAtPeer (w : World) (p : String) (P : Node → Prop) [DecidablePred P] :
    Decidable (AtPeer w p P) :=
  match h : w.peers p with
  | none => .isTrue fun node hnode => by cases h.symm.trans hnode
  | some node => decidable_of_iff (P node) ⟨fun hp n hn => by cases h.symm.trans hn; exact hp,
      fun hp => hp node h⟩

def newAddress? : Handler → Option String
  | .registering newAddress => some newAddress
  | _ => none

/-- A new peer is registered by one that belongs to the network and knows all who do, or by the one
that begins the network. -/
def KnowsAll (w : World) (p : String) (t : ℕ) (node : Node) : Prop :=
  ∀ newAddress ∈ newAddress? (node.state.handlers t), newAddress ∉ keys node →
    (p ∈ w.joined ∨ w.joined = []) ∧ ∀ q ∈ w.joined, q ∈ keys node

instance decidableKnowsAll (w : World) (p : String) (t : ℕ) : DecidablePred (KnowsAll w p t) :=
  fun node => inferInstanceAs (Decidable (∀ newAddress ∈ newAddress? (node.state.handlers t), _))

/-- Nothing is lost and nobody ends, no entry of a list is kept for a minute, and registrations are
handled by peers that know all others. -/
def Orderly (w : World) : Label → Prop
  | .stop _ | .loseRequest _ _ | .loseReply _ _ | .loseAnnouncement _ _ => False
  | .expire p _ now => AtPeer w p fun node => ∀ entry ∈ node.state.network, ¬Old now entry
  | .register p t _ => AtPeer w p (KnowsAll w p t)
  | .announce p newAddress reached => AtPeer w p fun node =>
      (informMessages node.address newAddress node.state.network).length ≤ reached
  | _ => True

instance decidableOrderly (w : World) : (label : Label) → Decidable (Orderly w label)
  | .stop _ | .loseRequest _ _ | .loseReply _ _ | .loseAnnouncement _ _ => .isFalse id
  | .expire p _ now =>
    decidableAtPeer w p fun node => ∀ entry ∈ node.state.network, ¬Old now entry
  | .register p t _ => decidableAtPeer w p (KnowsAll w p t)
  | .announce p newAddress reached => decidableAtPeer w p fun node =>
      (informMessages node.address newAddress node.state.network).length ≤ reached
  | .boot _ | .ask _ _ _ | .receive _ _ _ | .inform _ _ _ | .merge _ _ _ => .isTrue trivial

/-! ## Addresses on their way -/

/-- The message tells its receiver of a peer. -/
def Informs (bytesMessage : Bytes) (q : String) : Prop :=
  ∃ message, parseMessage (bytesMessage.take MSG_MAX) = .ok message ∧ dispatch message = .informing q

def HandlerInforms (q : String) : Handler → Prop
  | .expiring message => dispatch message = .informing q
  | .informing address => address = q
  | _ => False

/-- Something is on its way by which one peer will learn of another. -/
inductive OnItsWay (w : World) (p q : String) : Prop where
  | request {bytesMessage : Bytes} (sent : (p, bytesMessage) ∈ w.requests)
      (informs : Informs bytesMessage q)
  | handler {node : Node} {t : ℕ} (running : w.peers p = some node)
      (informs : HandlerInforms q (node.state.handlers t))
  | reply {addresses : List Address} (sent : (p, recordsOf addresses) ∈ w.replies)
      (lists : q ∈ addresses.map Address.text)
  | announcement {server : String} {node : Node} (announced : (server, q) ∈ w.announcements)
      (running : w.peers server = some node) (known : p ∈ keys node) (other : p ≠ server)
      (new : p ≠ q)

def Reaches (w : World) (p q : String) : Prop := Knows w p q ∨ OnItsWay w p q

section Carriers

variable {w w' : World} {p q : String}

/-- What is on its way stays so, if each part of it that is taken off has served its purpose. -/
theorem reaches_of (h : Reaches w p q)
    (hpeers : ∀ p node, w.peers p = some node → w'.peers p = some node)
    (hrequests : ∀ r ∈ w.requests, r ∈ w'.requests ∨ ∀ q, Informs r.2 q → Reaches w' r.1 q)
    (hreplies : ∀ r ∈ w.replies, r ∈ w'.replies ∨
      ∀ addresses : List Address, r.2 = recordsOf addresses →
        ∀ q ∈ addresses.map Address.text, Reaches w' r.1 q)
    (hannouncements : ∀ e ∈ w.announcements, e ∈ w'.announcements ∨
      ∀ node, w.peers e.1 = some node → ∀ p ∈ keys node, p ≠ e.1 → p ≠ e.2 → Reaches w' p e.2) :
    Reaches w' p q := by
  rcases h with ⟨node, hnode, hq⟩ | h
  · exact .inl ⟨node, hpeers p node hnode, hq⟩
  · cases h with
    | request sent informs =>
      rcases hrequests _ sent with hkept | hserved
      · exact .inr (.request hkept informs)
      · exact hserved q informs
    | handler running informs => exact .inr (.handler (hpeers _ _ running) informs)
    | reply sent lists =>
      rcases hreplies _ sent with hkept | hserved
      · exact .inr (.reply hkept lists)
      · exact hserved _ rfl q lists
    | announcement announced running known other new =>
      rcases hannouncements _ announced with hkept | hserved
      · exact .inr (.announcement hkept (hpeers _ _ running) known other new)
      · exact hserved _ running p known other new

theorem mergeLoop_keys {data : Bytes} {clock : ℕ → ℚ} (is : List ℕ) {network : Network}
    (h : q ∈ network.map Prod.fst) : q ∈ (mergeLoop data clock is network).1.map Prod.fst := by
  induction is generalizing network with
  | nil => exact h
  | cons i is ih =>
    rw [mergeLoop]
    split
    case h_1 => exact h
    case h_2 address _ =>
      split
      · apply ih
        rw [List.map_append]
        exact List.mem_append_left _ h
      · exact ih h

/-- Nobody who is not old is forgotten. -/
theorem keys_step {s t : State} {label : Peer.Label} (hstep : Peer.step s label = some t)
    (hold : ∀ thread now, label = .expire thread now → ∀ entry ∈ s.network, ¬Old now entry)
    {q : String} (hq : q ∈ s.network.map Prod.fst) : q ∈ t.network.map Prod.fst := by
  have hinsert : ∀ address now,
      q ∈ (UniqueKeys.insertNew s.network address now).map Prod.fst := by
    intro address now
    obtain ⟨entry, hentry, rfl⟩ := List.mem_map.mp hq
    exact List.mem_map_of_mem (UniqueKeys.mem_insertNew hentry address now)
  cases label with
  | receive thread bytesMessage =>
    simp only [Peer.step] at hstep
    split at hstep
    · split at hstep <;> cases hstep <;> exact hq
    · cases hstep
  | expire thread now =>
    simp only [Peer.step] at hstep
    split at hstep <;> cases hstep
    obtain ⟨entry, hentry, rfl⟩ := List.mem_map.mp hq
    rw [expirySection_eq]
    refine List.mem_map_of_mem ?_
    unfold survivors
    split
    · exact hentry
    · exact List.mem_filter.mpr ⟨hentry, by simpa using hold thread now rfl entry hentry⟩
  | register thread now =>
    simp only [Peer.step] at hstep
    split at hstep <;> cases hstep
    rw [registerSection_network]
    exact hinsert _ now
  | inform thread now =>
    simp only [Peer.step] at hstep
    split at hstep <;> cases hstep
    exact hinsert _ now
  | merge data clock =>
    cases hstep
    exact mergeLoop_keys _ hq

/-- A handler that is to learn of a peer goes on or has done so. -/
theorem handler_step {s t : State} {label : Peer.Label} (hstep : Peer.step s label = some t)
    {thread : ℕ} {q : String} (h : HandlerInforms q (s.handlers thread)) :
    q ∈ t.network.map Prod.fst ∨ HandlerInforms q (t.handlers thread) := by
  have hother : ∀ {u handler}, ¬HandlerInforms q (s.handlers u) →
      HandlerInforms q (Function.update s.handlers u handler thread) := by
    intro u handler hu
    have hne : thread ≠ u := by
      rintro rfl
      exact hu h
    rwa [Function.update_of_ne hne]
  cases label with
  | receive u bytesMessage =>
    simp only [Peer.step] at hstep
    split at hstep
    case h_1 hidle =>
      split at hstep <;> cases hstep
      · exact .inr h
      · exact .inr (hother (by simp [hidle, HandlerInforms]))
    case h_2 => cases hstep
  | expire u now =>
    simp only [Peer.step] at hstep
    split at hstep <;> cases hstep
    case h_1 message hexpiring =>
      right
      by_cases hu : thread = u
      · subst hu
        rw [hexpiring] at h
        dsimp only
        rw [Function.update_self, show dispatch message = .informing q from h]
        exact rfl
      · dsimp only
        rwa [Function.update_of_ne hu]
  | register u now =>
    simp only [Peer.step] at hstep
    split at hstep <;> cases hstep
    case h_1 newAddress hregistering =>
      exact .inr (hother (by simp [hregistering, HandlerInforms]))
  | inform u now =>
    simp only [Peer.step] at hstep
    split at hstep <;> cases hstep
    case h_1 address hinforming =>
      by_cases hu : thread = u
      · subst hu
        rw [hinforming] at h
        subst h
        left
        dsimp only
        unfold informSection
        split
        case isTrue hknown => exact hknown
        case isFalse => simp
      · right
        dsimp only
        rwa [Function.update_of_ne hu]
  | merge data clock =>
    cases hstep
    exact .inr h

/-- A section of a peer takes nothing away that is on its way to it or from it. -/
theorem reaches_section {node : Node} {state : State} {server : String} {label : Peer.Label}
    (hnode : w.peers server = some node) (hmoves : Peer.step node.state label = some state)
    (hold : ∀ thread now, label = .expire thread now → ∀ entry ∈ node.state.network, ¬Old now entry)
    (h : Reaches w p q) : Reaches (w.set server (some { node with state })) p q := by
  have hother : ∀ {u n}, u ≠ server → w.peers u = some n →
      (w.set server (some { node with state })).peers u = some n := by
    intro u n hu hn
    rwa [set_peers_other w hu]
  rcases h with ⟨n, hn, hq⟩ | h
  · by_cases hp : p = server
    · subst hp
      cases hnode.symm.trans hn
      exact .inl ⟨_, set_peers_self .., keys_step hmoves hold hq⟩
    · exact .inl ⟨n, hother hp hn, hq⟩
  · cases h with
    | request sent informs => exact .inr (.request sent informs)
    | @handler n t running informs =>
      by_cases hp : p = server
      · subst hp
        cases hnode.symm.trans running
        rcases handler_step hmoves informs with hknown | hhandler
        · exact .inl ⟨_, set_peers_self .., hknown⟩
        · exact .inr (.handler (set_peers_self ..) hhandler)
      · exact .inr (.handler (hother hp running) informs)
    | reply sent lists => exact .inr (.reply sent lists)
    | @announcement u n announced running known other new =>
      by_cases hu : u = server
      · subst hu
        cases hnode.symm.trans running
        exact .inr (.announcement announced (set_peers_self ..) (keys_step hmoves hold known) other new)
      · exact .inr (.announcement announced (hother hu running) known other new)

/-- A message that informs of a peer is understood. -/
theorem informs_messageOf (my a : Address) : Informs (messageOf my COMMAND_INFORM a.bytes) a.text := by
  obtain ⟨message, hparse, hcode, hpayload, hlength⟩ := parse_inform my a
  refine ⟨message, hparse, ?_⟩
  have hregister : ¬COMMAND_INFORM = COMMAND_REGISTER := by decide
  rw [dispatch, if_neg (by rw [hpayload, hlength]; exact fun h => h rfl), hcode, if_neg hregister,
    if_pos rfl, hpayload, recordAddress_bytes]

/-- What is on its way arrives or stays on its way. -/
theorem reaches_step (h : Honest w) {label : Label} (horderly : Orderly w label)
    (hstep : step w label = some w') (hreaches : Reaches w p q) : Reaches w' p q := by
  cases moves_of_step hstep with
  | boot a down =>
    refine reaches_of hreaches ?_ (fun r hr => .inl hr) (fun r hr => .inl hr) fun e he => .inl he
    intro u n hn
    have hu : u ≠ a.text := by
      rintro rfl
      rw [down] at hn
      cases hn
    exact (set_peers_other w hu _).trans hn
  | stop | loseRequest | loseReply | loseAnnouncement => exact horderly.elim
  | ask dest what running assembled =>
    exact reaches_of hreaches (fun _ _ => id) (fun r hr => .inl (List.mem_append_left _ hr))
      (fun r hr => .inl hr) fun e he => .inl he
  | @receive u node state t bytesMessage sent running moves =>
    have hkept := reaches_section running moves (by rintro _ _ ⟨⟩) hreaches
    refine reaches_of hkept (fun _ _ => id) ?_ (fun r hr => .inl hr) fun e he => .inl he
    intro r hr
    by_cases hthis : r = (u, bytesMessage)
    · subst hthis
      right
      rintro v ⟨message, hparse, hdispatch⟩
      right
      simp only [Peer.step] at moves
      split at moves
      case h_1 =>
        rw [hparse] at moves
        cases moves
        refine .handler (set_peers_self ..) (t := t) ?_
        dsimp only
        rw [Function.update_self]
        exact hdispatch
      case h_2 => cases moves
    · exact .inl ((List.mem_erase_of_ne hthis).mpr hr)
  | expire running moves =>
    refine reaches_section running moves ?_ hreaches
    rintro _ _ ⟨⟩
    exact horderly _ running
  | @register u node state t now newAddress running registering moves =>
    have hkept := reaches_section running moves (by rintro _ _ ⟨⟩) hreaches
    unfold World.registered
    split
    · exact reaches_of hkept (fun _ _ => id) (fun r hr => .inl hr)
        (fun r hr => .inl (List.mem_append_left _ hr)) fun e he => .inl (List.mem_append_left _ he)
    · exact hkept
  | inform running moves => exact reaches_section running moves (by rintro _ _ ⟨⟩) hreaches
  | @announce u newAddress node reached announced running =>
    obtain ⟨a, -, rfl⟩ := h.announcements _ announced
    refine reaches_of hreaches (fun _ _ => id) (fun r hr => .inl (List.mem_append_left _ hr))
      (fun r hr => .inl hr) ?_
    intro e he
    by_cases hthis : e = (u, a.text)
    · subst hthis
      right
      intro n hn v hv hserver hnew
      cases running.symm.trans hn
      obtain ⟨-, htext, haddresses, -⟩ := h.nodes u node running
      obtain ⟨entry, hentry, rfl⟩ := List.mem_map.mp hv
      have hnetwork : ∀ entry ∈ node.state.network, ∃ peer : Address, peer.text = entry.1 := by
        intro entry hentry
        obtain ⟨peer, -, hpeer⟩ := haddresses.network entry hentry
        exact ⟨peer, hpeer⟩
      have hmem : (entry.1, messageOf node.address COMMAND_INFORM a.bytes) ∈
          informMessages node.address a.text node.state.network := by
        rw [informMessages_eq hnetwork, htext]
        refine List.mem_map_of_mem (List.mem_filter.mpr ⟨hentry, ?_⟩)
        simpa using ⟨hserver, hnew⟩
      refine .inr (.request (List.mem_append_right _ ?_) (informs_messageOf node.address a))
      rwa [List.take_of_length_le (horderly node running)]
    · exact .inl ((List.mem_erase_of_ne hthis).mpr he)
  | @merge u node state data clock sent running moves =>
    have hkept := reaches_section running moves (by rintro _ _ ⟨⟩) hreaches
    refine reaches_of hkept (fun _ _ => id) (fun r hr => .inl hr) ?_ fun e he => .inl he
    intro r hr
    by_cases hthis : r = (u, data)
    · subst hthis
      right
      rintro addresses rfl v hv
      obtain ⟨added, hmerged, -, hadded⟩ := mergeSection_added addresses clock node.state.network
      cases moves
      refine .inl ⟨_, set_peers_self .., ?_⟩
      rw [keys]
      dsimp only
      rw [hmerged, List.map_append, List.mem_append, hadded v]
      exact or_iff_not_imp_left.mpr fun hnew => ⟨hv, hnew⟩
    · exact .inl ((List.mem_erase_of_ne hthis).mpr hr)

end Carriers

/-! ## Agreement -/

/-- Every peer of the network knows every other or will. -/
structure Spread (w : World) : Prop where
  honest : Honest w
  reaches : ∀ p ∈ w.joined, ∀ q ∈ w.joined, Reaches w p q

theorem spread_initial : Spread initial := by
  refine ⟨initial_honest, ?_⟩
  intro p hp
  cases hp

/-- A peer knows itself. -/
theorem knows_self {w : World} (h : Honest w) {p : String} {node : Node}
    (hnode : w.peers p = some node) : p ∈ keys node :=
  List.mem_map_of_mem (h.nodes p node hnode).2.2.2.own

/-- A registration by a peer that knows all others: the new one will be told of them and they of
it. -/
theorem spread_register {w : World} (h : Spread w) {p newAddress : String} {node : Node}
    {state : State} {t : ℕ} {now : ℚ} {payload : Bytes} (hnode : w.peers p = some node)
    (hregistering : node.state.handlers t = .registering newAddress)
    (hmoves : Peer.step node.state (.register t now) = some state)
    (hpayload : (registerSection newAddress now node.state.network).2 = .ok (some payload))
    (horderly : Orderly w (.register p t now)) {w' : World}
    (hw : w' = { w.set p (some { node with state }) with
      replies := w.replies ++ [(newAddress, payload)]
      announcements := w.announcements ++ [(p, newAddress)]
      joined := w.joined ++ [p, newAddress] })
    (hkept : ∀ u v, Reaches w u v → Reaches w' u v) :
    ∀ u ∈ w'.joined, ∀ v ∈ w'.joined, Reaches w' u v := by
  have hstarted : Started w.booted newAddress := by
    have hbrings := (h.honest.nodes p node hnode).2.2.1.handlers t
    rwa [hregistering] at hbrings
  obtain ⟨hnew, addresses, -, htexts, rfl⟩ := registered_payload h.honest hnode hstarted hpayload
  have hregisters : newAddress ∈ newAddress? (node.state.handlers t) := by
    rw [hregistering]
    rfl
  obtain ⟨hmember, hall⟩ := horderly node hnode newAddress hregisters hnew
  have hself := knows_self h.honest hnode
  have hrunning : w'.peers p = some { node with state } := by
    rw [hw]
    exact set_peers_self ..
  have hknown : ∀ v ∈ w.joined ++ [p], v ∈ keys node := by
    intro v hv
    rcases List.mem_append.mp hv with hv | hv
    · exact hall v hv
    · rw [List.mem_singleton.mp hv]
      exact hself
  have hbefore : ∀ u ∈ w.joined ++ [p], ∀ v ∈ w.joined ++ [p], Reaches w u v := by
    rcases hmember with hp | hnobody
    · have hjoined : ∀ v ∈ w.joined ++ [p], v ∈ w.joined := by
        intro v hv
        rcases List.mem_append.mp hv with hv | hv
        · exact hv
        · rwa [List.mem_singleton.mp hv]
      exact fun u hu v hv => h.reaches u (hjoined u hu) v (hjoined v hv)
    · rw [hnobody, List.nil_append]
      intro u hu v hv
      rw [List.mem_singleton.mp hu, List.mem_singleton.mp hv]
      exact .inl ⟨node, hnode, hself⟩
  have hsplit : ∀ u ∈ w'.joined, u ∈ w.joined ++ [p] ∨ u = newAddress := by
    intro u hu
    rw [hw] at hu
    simpa [or_assoc] using hu
  intro u hu v hv
  rcases hsplit u hu with hu | rfl
  · rcases hsplit v hv with hv | rfl
    · exact hkept u v (hbefore u hu v hv)
    · -- one of the others hears of the new peer
      by_cases hup : u = p
      · subst hup
        refine .inl ⟨_, hrunning, ?_⟩
        simp only [Peer.step, hregistering] at hmoves
        cases hmoves
        rw [keys, registerSection_network, UniqueKeys.insertNew, if_neg hnew]
        simp
      · have hannounced : (p, v) ∈ w'.announcements := by
          rw [hw]
          exact List.mem_append_right _ List.mem_cons_self
        refine .inr (.announcement hannounced hrunning ?_ hup ?_)
        · exact keys_step hmoves (by rintro _ _ ⟨⟩) (hknown u hu)
        · rintro rfl
          exact hnew (hknown _ hu)
  · -- the new peer is sent the whole list
    have hreply : (u, recordsOf addresses) ∈ w'.replies := by
      rw [hw]
      exact List.mem_append_right _ List.mem_cons_self
    refine .inr (.reply hreply ?_)
    rw [htexts]
    rcases hsplit v hv with hv | rfl
    · exact List.mem_append_left _ (hknown v hv)
    · exact List.mem_append_right _ List.mem_cons_self

theorem spread_step {w w' : World} {label : Label} (h : Spread w) (horderly : Orderly w label)
    (hstep : step w label = some w') : Spread w' := by
  have hkept : ∀ u v, Reaches w u v → Reaches w' u v :=
    fun _ _ hreaches => reaches_step h.honest horderly hstep hreaches
  refine ⟨honest_step h.honest hstep, ?_⟩
  cases moves_of_step hstep with
  | @register p node state t now newAddress running registering moves =>
    unfold World.registered at hkept ⊢
    split
    case h_1 payload hpayload =>
      rw [hpayload] at hkept
      exact spread_register h running registering moves hpayload horderly rfl hkept
    case h_2 hother =>
      split at hkept
      case h_1 hpayload => exact absurd hpayload (hother _)
      case h_2 => exact fun p hp q hq => hkept p q (h.reaches p hp q hq)
  | boot | stop | ask | receive | expire | inform | announce | merge | loseRequest | loseReply
  | loseAnnouncement => exact fun p hp q hq => hkept p q (h.reaches p hp q hq)

/-- Nothing is on its way and nobody is at work. -/
structure Quiet (w : World) : Prop where
  requests : w.requests = []
  replies : w.replies = []
  announcements : w.announcements = []
  handlers : ∀ p node t, w.peers p = some node → node.state.handlers t = .idle

theorem knows_of_quiet {w : World} (h : Quiet w) {p q : String} (hreaches : Reaches w p q) :
    Knows w p q := by
  rcases hreaches with hknows | hway
  · exact hknows
  · cases hway with
    | request sent =>
      rw [h.requests] at sent
      cases sent
    | handler running informs =>
      rw [h.handlers _ _ _ running] at informs
      exact informs.elim
    | reply sent =>
      rw [h.replies] at sent
      cases sent
    | announcement announced =>
      rw [h.announcements] at announced
      cases announced

/-- In a run in good order, each peer of the network knows each other or is about to learn of it.
When everything has arrived all lists agree, and they have all peers if all have joined. -/
theorem lists_agree {labels : List Label} {w : World} (hrun : labels.foldlM step initial = some w)
    (horderly : Transition.Respects step Orderly initial labels) :
    (∀ p ∈ w.joined, ∀ q ∈ w.joined, Knows w p q ∨ OnItsWay w p q) ∧
      (Quiet w → ∀ p ∈ w.joined, ∃ node, w.peers p = some node ∧
        (∀ q ∈ w.joined, q ∈ keys node) ∧ (∀ q ∈ keys node, Started w.booted q) ∧
        ((∀ a ∈ w.booted, a.text ∈ w.joined) → ∀ q, q ∈ keys node ↔ q ∈ w.joined)) := by
  have hspread : Spread w := horderly.invariant (fun _ _ _ => spread_step) spread_initial hrun
  refine ⟨hspread.reaches, ?_⟩
  intro hquiet p hp
  have hknows := fun q hq => knows_of_quiet hquiet (hspread.reaches p hp q hq)
  obtain ⟨node, hnode, -⟩ := hknows p hp
  have hall : ∀ q ∈ w.joined, q ∈ keys node := by
    intro q hq
    obtain ⟨n, hn, hmem⟩ := hknows q hq
    cases hnode.symm.trans hn
    exact hmem
  have hstarted : ∀ q ∈ keys node, Started w.booted q := by
    intro q hq
    obtain ⟨entry, hentry, rfl⟩ := List.mem_map.mp hq
    exact (hspread.honest.nodes p node hnode).2.2.1.network entry hentry
  refine ⟨node, hnode, hall, hstarted, ?_⟩
  intro hjoined q
  constructor
  · intro hq
    obtain ⟨a, ha, rfl⟩ := hstarted q hq
    exact hjoined a ha
  · exact hall q

/-- A handler is idle until it receives a message. -/
theorem idle_step {s s' : State} {label : Peer.Label} {t : ℕ} (hidle : s.handlers t = .idle)
    (hother : ∀ bytesMessage, label ≠ .receive t bytesMessage)
    (hstep : Peer.step s label = some s') : s'.handlers t = .idle := by
  cases label with
  | receive u bytesMessage =>
    have hu : t ≠ u := by
      rintro rfl
      exact hother _ rfl
    simp only [Peer.step] at hstep
    split at hstep <;> try cases hstep
    split at hstep <;> cases hstep
    · exact hidle
    · exact (Function.update_of_ne hu ..).trans hidle
  | expire u now | register u now | inform u now =>
    have hu : t ≠ u := by
      rintro rfl
      simp only [Peer.step, hidle] at hstep
      cases hstep
    simp only [Peer.step] at hstep
    split at hstep <;> cases hstep
    exact (Function.update_of_ne hu ..).trans hidle
  | merge data clock =>
    cases hstep
    exact hidle

def IdleAt (p : String) (t : ℕ) (w : World) : Prop :=
  ∀ node, w.peers p = some node → node.state.handlers t = .idle

theorem idleAt_step {p : String} {t : ℕ} {w w' : World} {label : Label} (hidle : IdleAt p t w)
    (hother : ∀ bytesMessage, label ≠ .receive p t bytesMessage)
    (hstep : step w label = some w') : IdleAt p t w' := by
  have hset : ∀ {q : String} {node : Option Node}, (q = p → ∀ n, node = some n →
      n.state.handlers t = .idle) → IdleAt p t (w.set q node) := by
    intro q node hnode n hn
    by_cases hq : p = q
    · subst hq
      exact hnode rfl n ((set_peers_self ..).symm.trans hn)
    · exact hidle n ((set_peers_other w hq node).symm.trans hn)
  have hmoved : ∀ {q : String} {node : Node} {state : State} {l : Peer.Label},
      w.peers q = some node → Peer.step node.state l = some state →
      (q = p → ∀ bytesMessage, l ≠ .receive t bytesMessage) →
      IdleAt p t (w.set q (some { node with state })) := by
    intro q node state l hnode hmoves hl
    apply hset
    rintro rfl n hn
    cases hn
    exact idle_step (hidle node hnode) (hl rfl) hmoves
  cases moves_of_step hstep with
  | boot a =>
    refine hset (q := a.text) ?_
    rintro - n hn
    cases hn
    rfl
  | stop q => exact hset (by rintro - _ ⟨⟩)
  | receive sent running moves =>
    refine hmoved running moves ?_
    rintro rfl bytesMessage hl
    cases hl
    exact hother _ rfl
  | register running registering moves =>
    unfold World.registered
    split
    · exact hmoved running moves (by rintro - _ ⟨⟩)
    · exact hmoved running moves (by rintro - _ ⟨⟩)
  | expire running moves | inform running moves => exact hmoved running moves (by rintro - _ ⟨⟩)
  | merge sent running moves => exact hmoved running moves (by rintro - _ ⟨⟩)
  | ask | announce | loseRequest | loseReply | loseAnnouncement => exact hidle

/-- A handler that no message was received by is idle. -/
theorem idleAt_run {p : String} {t : ℕ} {labels : List Label} {w w' : World}
    (hidle : IdleAt p t w)
    (hnever : ∀ label ∈ labels, ∀ bytesMessage, label ≠ .receive p t bytesMessage)
    (hrun : labels.foldlM step w = some w') : IdleAt p t w' := by
  induction labels generalizing w with
  | nil =>
    cases hrun
    exact hidle
  | cons label labels ih =>
    obtain ⟨w₁, hstep, hrest⟩ := Transition.run_cons.mp hrun
    have hidle₁ := idleAt_step hidle (hnever label List.mem_cons_self) hstep
    exact ih hidle₁ (fun label' hmem => hnever label' (List.mem_cons_of_mem _ hmem)) hrest

def third : Address where
  ip := "10.0.0.3"
  port := 9
  nonempty := by decide
  short := by decide
  ascii := List.all_iff_forall_prop.mp rfl
  noColon := by decide
  noNul := by decide
  positive := by decide
  portFits := by decide

/-- The third peer registers with the first one, which tells the second one. -/
def thirdJoins : List Label :=
  handshake ++ [.boot third, .ask "10.0.0.3:9" "10.0.0.1:5" .register,
    .receive "10.0.0.1:5" 0 (messageOf third COMMAND_REGISTER []),
    .expire "10.0.0.1:5" 0 110, .register "10.0.0.1:5" 0 110,
    .announce "10.0.0.1:5" "10.0.0.3:9" 1,
    .merge "10.0.0.3:9" (recordsOf [first, second, third]) fun _ => 111,
    .receive "10.0.0.2:7" 0 (messageOf first COMMAND_INFORM third.bytes),
    .expire "10.0.0.2:7" 0 112, .inform "10.0.0.2:7" 0 112]

def receivesOnlyBy (t : ℕ) : Label → Bool
  | .receive _ u _ => u = t
  | _ => true

def idleAt (w : World) (t : ℕ) (a : Address) : Bool :=
  match w.peers a.text with
  | none => true
  | some node =>
    match node.state.handlers t with
    | .idle => true
    | _ => false

theorem idleAt_iff {w : World} {t : ℕ} {a : Address} : idleAt w t a = true ↔ IdleAt a.text t w := by
  rw [idleAt, IdleAt]
  cases w.peers a.text with
  | none => simp
  | some node => cases hhandler : node.state.handlers t <;> simp [hhandler]

/-- All but the handlers of other threads is quiet. -/
def quietBut (t : ℕ) (w : World) : Bool :=
  w.requests.isEmpty && w.replies.isEmpty && w.announcements.isEmpty && w.booted.all (idleAt w t)

/-- Where only one thread of each peer receives, the others need not be looked at. -/
theorem quiet_of_run {labels : List Label} {w : World} {t : ℕ}
    (hrun : labels.foldlM step initial = some w)
    (honly : ∀ label ∈ labels, receivesOnlyBy t label = true) (hquiet : quietBut t w = true) :
    Quiet w := by
  simp only [quietBut, Bool.and_eq_true, List.isEmpty_iff, List.all_eq_true] at hquiet
  obtain ⟨⟨⟨hrequests, hreplies⟩, hannouncements⟩, hidle⟩ := hquiet
  refine ⟨hrequests, hreplies, hannouncements, ?_⟩
  intro p node u hnode
  by_cases hu : u = t
  · subst hu
    have hhonest := reachable_honest (Transition.reachable_of_run labels (.start rfl) hrun)
    obtain ⟨hbooted, rfl, -⟩ := hhonest.nodes p node hnode
    exact idleAt_iff.mp (hidle _ hbooted) node hnode
  · refine idleAt_run (p := p) (t := u) (by rintro _ ⟨⟩) ?_ hrun node hnode
    rintro label hlabel bytesMessage rfl
    exact hu (of_decide_eq_true (honly _ hlabel))

theorem lists_agree_three : ∃ w, thirdJoins.foldlM step initial = some w ∧
    w.joined = ["10.0.0.1:5", "10.0.0.2:7", "10.0.0.1:5", "10.0.0.3:9"] ∧
      ∀ p ∈ w.joined, ∃ node, w.peers p = some node ∧ ∀ q, q ∈ keys node ↔ q ∈ w.joined := by
  have hfinal : (thirdJoins.foldlM step initial).map (fun w =>
      (w.joined, quietBut 0 w, w.booted.all fun a => a.text ∈ w.joined)) =
      some (["10.0.0.1:5", "10.0.0.2:7", "10.0.0.1:5", "10.0.0.3:9"], true, true) := by
    decide +kernel
  have horderly : Transition.Respects step Orderly initial thirdJoins := by decide +kernel
  obtain ⟨w, hw, hfinal⟩ := Option.map_eq_some_iff.mp hfinal
  simp only [Prod.mk.injEq, List.all_eq_true, decide_eq_true_eq] at hfinal
  obtain ⟨hjoined, hquiet, hall⟩ := hfinal
  refine ⟨w, hw, hjoined, ?_⟩
  intro p hp
  obtain ⟨node, hnode, -, -, hagree⟩ := (lists_agree hw horderly).2
    (quiet_of_run hw (List.all_eq_true.mp rfl) hquiet) p hp
  exact ⟨node, hnode, hagree hall⟩

/-- The third peer registers with the second one, which has not yet got the list of the first. -/
def atOnce : List Label :=
  [.boot first, .boot second, .boot third,
    .ask "10.0.0.2:7" "10.0.0.1:5" .register, .ask "10.0.0.3:9" "10.0.0.2:7" .register,
    .receive "10.0.0.1:5" 0 [49, 48, 46, 48, 46, 48, 46, 50, 0, 0, 0, 0, 0, 0, 0, 0, 0, 0, 0, 7,
      0, 0, 0, 1, 0, 0, 0, 0],
    .expire "10.0.0.1:5" 0 100, .register "10.0.0.1:5" 0 100,
    .receive "10.0.0.2:7" 0 [49, 48, 46, 48, 46, 48, 46, 51, 0, 0, 0, 0, 0, 0, 0, 0, 0, 0, 0, 9,
      0, 0, 0, 1, 0, 0, 0, 0],
    .expire "10.0.0.2:7" 0 101, .register "10.0.0.2:7" 0 101,
    .announce "10.0.0.1:5" "10.0.0.2:7" 9, .announce "10.0.0.2:7" "10.0.0.3:9" 9,
    .merge "10.0.0.2:7" [49, 48, 46, 48, 46, 48, 46, 49, 0, 0, 0, 0, 0, 0, 0, 0, 0, 0, 0, 5,
      49, 48, 46, 48, 46, 48, 46, 50, 0, 0, 0, 0, 0, 0, 0, 0, 0, 0, 0, 7] fun _ => 102,
    .merge "10.0.0.3:9" [49, 48, 46, 48, 46, 48, 46, 50, 0, 0, 0, 0, 0, 0, 0, 0, 0, 0, 0, 7,
      49, 48, 46, 48, 46, 48, 46, 51, 0, 0, 0, 0, 0, 0, 0, 0, 0, 0, 0, 9] fun _ => 102]

/-- When everything has arrived, the first and the third peer do not know each other. -/
theorem atOnce_miss :
    (atOnce.foldlM step initial).map (fun w =>
      (w.requests.length + w.replies.length + w.announcements.length,
        [first, second, third].map fun a => (networkOf w a.text).map (List.map Prod.fst))) =
      some (0, [some ["10.0.0.1:5", "10.0.0.2:7"],
        some ["10.0.0.2:7", "10.0.0.3:9", "10.0.0.1:5"], some ["10.0.0.3:9", "10.0.0.2:7"]]) := by
  decide +kernel

end CompSys.PeerSystem
