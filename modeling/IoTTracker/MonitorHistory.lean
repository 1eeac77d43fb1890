import IoTTracker.MonitorProtocol

/-!
# The history of a monitor

Which monitors are live, and what each has been sent, read off the events alone:
a monitor is live between its connection and its disconnection, and it is to
receive the broadcasts made in between. The server keeps no history; its list of
clients and its writes agree with it after every run.
-/

namespace IoTTracker.RemoteMonitorServer

/-- A socket emits `disconnected` once, after it has connected. -/
def DisconnectsOnce (events : List MonitorEvent) : Prop :=
  ∀ before client later, events = before ++ .disconnect client :: later →
    client < before.count .incomingConnection ∧ .disconnect client ∉ before

def IsLive (events : List MonitorEvent) (monitor : MonitorPtr) : Prop :=
  monitor < events.count .incomingConnection ∧ .disconnect monitor ∉ events

instance (events : List MonitorEvent) (monitor : MonitorPtr) :
    Decidable (IsLive events monitor) :=
  inferInstanceAs (Decidable (_ ∧ _))

def sinceConnection : MonitorPtr → List MonitorEvent → List MonitorEvent
  | _, [] => []
  | 0, .incomingConnection :: later => later
  | monitor + 1, .incomingConnection :: later => sinceConnection monitor later
  | monitor, _ :: later => sinceConnection monitor later

/-- The events between the connection of `monitor` and its disconnection. -/
def lifetime (monitor : MonitorPtr) (events : List MonitorEvent) : List MonitorEvent :=
  (sinceConnection monitor events).takeWhile fun event => decide (event ≠ .disconnect monitor)

def MonitorEvent.broadcast? : MonitorEvent → Option Broadcast
  | .broadcast b => some b
  | _ => none

def broadcastsTo (monitor : MonitorPtr) (events : List MonitorEvent) : List Broadcast :=
  (lifetime monitor events).filterMap MonitorEvent.broadcast?

/-- The bytes of a broadcast, zero bytes of a document included. -/
def wholeFrame (codec : TextCodec) : Broadcast → QByteArray
  | .updateClientsCPS cps totalDevices => codec.toUtf8 (cpsText cps totalDevices)
  | .updateClients jsonDoc => codec.toUtf8 (updateText jsonDoc.length) ++ jsonDoc

variable {events before : List MonitorEvent} {monitor : MonitorPtr}

/-! ### Well-formed histories -/

theorem disconnectsOnce_nil : DisconnectsOnce [] := by
  intro before client later hsplit
  exact absurd hsplit.symm (by simp)

theorem disconnectsOnce_concat_iff (events : List MonitorEvent) (event : MonitorEvent) :
    DisconnectsOnce (events ++ [event]) ↔
      DisconnectsOnce events ∧ ∀ client, event = .disconnect client → IsLive events client := by
  constructor
  · intro honce
    constructor
    · rintro before client later rfl
      exact honce before client (later ++ [event]) (by simp)
    · rintro client rfl
      exact honce events client [] rfl
  · rintro ⟨honce, hlive⟩ before client later hsplit
    rcases List.eq_nil_or_concat' later with rfl | ⟨later', last, rfl⟩
    · obtain ⟨rfl, hevent⟩ := List.append_inj' hsplit rfl
      exact hlive client (List.singleton_inj.mp hevent)
    · rw [← List.cons_append, ← List.append_assoc] at hsplit
      exact honce before client later' (List.append_inj' hsplit rfl).1

theorem DisconnectsOnce.lt_count (honce : DisconnectsOnce events)
    (hdisconnect : .disconnect monitor ∈ events) :
    monitor < events.count .incomingConnection := by
  obtain ⟨before, later, rfl⟩ := List.append_of_mem hdisconnect
  rw [List.count_append]
  exact Nat.lt_add_right _ (honce before monitor later rfl).1

/-! ### One more event -/

theorem sinceConnection_append (events later : List MonitorEvent) :
    ∀ {monitor : MonitorPtr}, monitor < events.count .incomingConnection →
      sinceConnection monitor (events ++ later) = sinceConnection monitor events ++ later := by
  induction events with
  | nil =>
      intro monitor hconnected
      simp at hconnected
  | cons event events ih =>
      intro monitor hconnected
      cases event with
      | incomingConnection =>
          cases monitor with
          | zero => rfl
          | succ monitor =>
              rw [List.count_cons_self] at hconnected
              exact ih (Nat.lt_of_succ_lt_succ hconnected)
      | disconnect client =>
          rw [List.count_cons_of_ne (by simp)] at hconnected
          cases monitor <;> exact ih hconnected
      | broadcast b =>
          rw [List.count_cons_of_ne (by simp)] at hconnected
          cases monitor <;> exact ih hconnected

theorem sinceConnection_concat_eq_nil (events : List MonitorEvent) (event : MonitorEvent) :
    ∀ {monitor : MonitorPtr}, events.count .incomingConnection ≤ monitor →
      sinceConnection monitor (events ++ [event]) = [] := by
  induction events with
  | nil =>
      intro monitor _
      cases event <;> cases monitor <;> rfl
  | cons first events ih =>
      intro monitor hle
      cases first with
      | incomingConnection =>
          rw [List.count_cons_self] at hle
          cases monitor with
          | zero => exact absurd hle (Nat.not_succ_le_zero _)
          | succ monitor => exact ih (Nat.le_of_succ_le_succ hle)
      | disconnect client =>
          rw [List.count_cons_of_ne (by simp)] at hle
          cases monitor <;> exact ih hle
      | broadcast b =>
          rw [List.count_cons_of_ne (by simp)] at hle
          cases monitor <;> exact ih hle

theorem mem_sinceConnection (honce : DisconnectsOnce events)
    (hdisconnect : .disconnect monitor ∈ events) :
    .disconnect monitor ∈ sinceConnection monitor events := by
  obtain ⟨before, later, rfl⟩ := List.append_of_mem hdisconnect
  rw [sinceConnection_append _ _ (honce before monitor later rfl).1]
  exact List.mem_append_right _ (List.mem_cons_self ..)

theorem mem_of_mem_sinceConnection {event : MonitorEvent} (events : List MonitorEvent) :
    ∀ {monitor : MonitorPtr}, event ∈ sinceConnection monitor events → event ∈ events := by
  induction events with
  | nil =>
      intro monitor hevent
      cases monitor <;> cases hevent
  | cons first events ih =>
      intro monitor hevent
      apply List.mem_cons_of_mem
      cases first with
      | incomingConnection =>
          cases monitor with
          | zero => exact hevent
          | succ monitor => exact ih hevent
      | disconnect client => cases monitor <;> exact ih hevent
      | broadcast b => cases monitor <;> exact ih hevent

/-- A live monitor's lifetime goes on; that of any other is over or has not begun. -/
theorem lifetime_concat (honce : DisconnectsOnce events) (monitor : MonitorPtr)
    (event : MonitorEvent) :
    lifetime monitor (events ++ [event]) =
      lifetime monitor events ++
        if monitor < events.count .incomingConnection ∧ .disconnect monitor ∉ events ∧
          event ≠ .disconnect monitor then [event] else [] := by
  by_cases hconnected : monitor < events.count .incomingConnection
  · rw [lifetime, sinceConnection_append events [event] hconnected, List.takeWhile_append]
    by_cases hdisconnect : .disconnect monitor ∈ events
    · have hmem := mem_sinceConnection honce hdisconnect
      rw [if_neg, if_neg (by simp [hdisconnect]), List.append_nil]
      · rfl
      · intro hlength
        have hall := (List.takeWhile_prefix _).eq_of_length hlength
        rw [List.takeWhile_eq_self_iff] at hall
        exact of_decide_eq_true (hall _ hmem) rfl
    · have hall : (sinceConnection monitor events).takeWhile
          (fun event => decide (event ≠ .disconnect monitor)) = sinceConnection monitor events := by
        rw [List.takeWhile_eq_self_iff]
        intro other hother
        apply decide_eq_true
        rintro rfl
        exact hdisconnect (mem_of_mem_sinceConnection events hother)
      rw [if_pos (by rw [hall]), lifetime, hall]
      by_cases hevent : event = .disconnect monitor
      · simp [hevent]
      · simp [hevent, hconnected, hdisconnect]
  · have hle := Nat.le_of_not_lt hconnected
    have hbefore : sinceConnection monitor events = [] := by
      rcases List.eq_nil_or_concat' events with rfl | ⟨events', last, rfl⟩
      · cases monitor <;> rfl
      · apply sinceConnection_concat_eq_nil
        rw [List.count_append] at hle
        exact (Nat.le_add_right _ _).trans hle
    rw [lifetime, lifetime, sinceConnection_concat_eq_nil events event hle, hbefore,
      if_neg (by simp [hconnected])]
    rfl

theorem broadcastsTo_concat (honce : DisconnectsOnce events) (monitor : MonitorPtr)
    (b : Broadcast) :
    broadcastsTo monitor (events ++ [.broadcast b]) =
      broadcastsTo monitor events ++ if IsLive events monitor then [b] else [] := by
  have hiff : (monitor < events.count .incomingConnection ∧ .disconnect monitor ∉ events ∧
      MonitorEvent.broadcast b ≠ .disconnect monitor) ↔ IsLive events monitor := by
    simp [IsLive]
  rw [broadcastsTo, lifetime_concat honce, List.filterMap_append]
  by_cases hlive : IsLive events monitor
  · rw [if_pos (hiff.mpr hlive), if_pos hlive]
    rfl
  · rw [if_neg fun hmem => hlive (hiff.mp hmem), if_neg hlive]
    rfl

theorem broadcastsTo_concat_of_broadcast?_eq_none (honce : DisconnectsOnce events)
    (monitor : MonitorPtr) {event : MonitorEvent}
    (hevent : MonitorEvent.broadcast? event = none) :
    broadcastsTo monitor (events ++ [event]) = broadcastsTo monitor events := by
  rw [broadcastsTo, lifetime_concat honce, List.filterMap_append]
  split <;> simp [hevent, broadcastsTo]

/-! ### The server agrees with the history -/

theorem clients_removeClient (client : MonitorPtr) (server : RemoteMonitorServer) :
    (server.removeClient client).clients = server.clients.erase client :=
  List.eraseIdx_idxOf_eq_erase client server.clients

structure HistoryInv (codec : TextCodec) (events : List MonitorEvent)
    (server : RemoteMonitorServer) : Prop where
  connected_eq : server.connected = events.count .incomingConnection
  mem_clients_iff : ∀ monitor, monitor ∈ server.clients ↔ IsLive events monitor
  written_eq : ∀ monitor,
    server.written monitor = (broadcastsTo monitor events).flatMap (frame codec)

variable {codec : TextCodec} {server : RemoteMonitorServer}

theorem historyInv_incomingConnection (honce : DisconnectsOnce events)
    (hhistory : HistoryInv codec events server) :
    HistoryInv codec (events ++ [.incomingConnection]) server.incomingConnection := by
  refine ⟨?_, ?_, ?_⟩
  · simp [incomingConnection, hhistory.connected_eq]
  · intro monitor
    have hnew : .disconnect (events.count .incomingConnection) ∉ events := fun hdisconnect =>
      Nat.lt_irrefl _ (honce.lt_count hdisconnect)
    have hclients : monitor ∈ server.incomingConnection.clients ↔
        monitor ∈ server.clients ∨ monitor = server.connected := by
      simp [incomingConnection]
    rw [hclients, hhistory.mem_clients_iff, hhistory.connected_eq]
    simp only [IsLive, List.count_append, List.count_singleton_self, List.mem_append,
      List.mem_singleton, reduceCtorEq, or_false]
    constructor
    · rintro (⟨hlt, hlive⟩ | rfl)
      · exact ⟨Nat.lt_succ_of_lt hlt, hlive⟩
      · exact ⟨Nat.lt_succ_self _, hnew⟩
    · rintro ⟨hlt, hlive⟩
      rcases Nat.lt_succ_iff_lt_or_eq.mp hlt with hold | heq
      · exact .inl ⟨hold, hlive⟩
      · exact .inr heq
  · intro monitor
    rw [broadcastsTo_concat_of_broadcast?_eq_none honce monitor rfl]
    exact hhistory.written_eq monitor

theorem historyInv_removeClient (hinv : server.Inv) (honce : DisconnectsOnce events)
    (hhistory : HistoryInv codec events server) (client : MonitorPtr) :
    HistoryInv codec (events ++ [.disconnect client]) (server.removeClient client) := by
  refine ⟨?_, ?_, ?_⟩
  · simp [removeClient, hhistory.connected_eq]
  · intro monitor
    rw [clients_removeClient, hinv.nodup.mem_erase_iff, hhistory.mem_clients_iff]
    simp only [IsLive, List.count_append, List.mem_append, List.mem_singleton,
      MonitorEvent.disconnect.injEq, not_or]
    constructor
    · rintro ⟨hne, hlt, hlive⟩
      exact ⟨Nat.lt_add_right _ hlt, hlive, hne⟩
    · rintro ⟨hlt, hlive, hne⟩
      exact ⟨hne, by simpa using hlt, hlive⟩
  · intro monitor
    rw [broadcastsTo_concat_of_broadcast?_eq_none honce monitor rfl]
    exact hhistory.written_eq monitor

theorem historyInv_broadcast (hinv : server.Inv) (honce : DisconnectsOnce events)
    (hhistory : HistoryInv codec events server) (b : Broadcast) :
    HistoryInv codec (events ++ [.broadcast b]) (server.broadcast codec b) := by
  refine ⟨?_, ?_, ?_⟩
  · simp [hhistory.connected_eq]
  · intro monitor
    rw [clients_broadcast, hhistory.mem_clients_iff]
    simp [IsLive]
  · intro monitor
    rw [written_broadcast codec b hinv.nodup, hhistory.written_eq,
      broadcastsTo_concat honce monitor b, List.flatMap_append]
    simp only [hhistory.mem_clients_iff]
    split <;> simp

/-- **Client list and streams agree with the history** after every run. -/
theorem historyInv_after (codec : TextCodec) (events : List MonitorEvent) :
    DisconnectsOnce events → HistoryInv codec events (after codec events) := by
  refine (machine codec).history_induction
    (P := fun events server => DisconnectsOnce events → HistoryInv codec events server) ?_ ?_ events
  · intro _
    refine ⟨rfl, ?_, ?_⟩
    · intro monitor
      simp [init, IsLive]
    · intro monitor
      cases monitor <;> rfl
  · intro events event ih honce
    obtain ⟨hbefore, -⟩ := (disconnectsOnce_concat_iff events event).mp honce
    have hinv := inv_after codec events
    cases event with
    | incomingConnection => exact historyInv_incomingConnection hbefore (ih hbefore)
    | disconnect client => exact historyInv_removeClient hinv hbefore (ih hbefore) client
    | broadcast b => exact historyInv_broadcast hinv hbefore (ih hbefore) b

theorem broadcastsTo_of_disconnect (honce : DisconnectsOnce events) {later : List MonitorEvent}
    (hsplit : events = before ++ .disconnect monitor :: later) :
    broadcastsTo monitor events = broadcastsTo monitor before := by
  obtain ⟨hconnected, -⟩ := honce before monitor later hsplit
  rw [broadcastsTo, broadcastsTo, lifetime, lifetime, hsplit,
    sinceConnection_append _ _ hconnected, List.takeWhile_append]
  split
  · rename_i hlength
    rw [(List.takeWhile_prefix _).eq_of_length hlength]
    simp
  · rfl

theorem frame_eq_wholeFrame (hcodec : codec.AsciiTransparent) (b : Broadcast)
    (hzero : ∀ jsonDoc, b = .updateClients jsonDoc → 0 ∉ jsonDoc) :
    frame codec b = wholeFrame codec b := by
  have htext : ∀ lines : List QString, (∀ line ∈ lines, line.AsciiLine) →
      QByteArray.cString (codec.toUtf8 (QString.ofLines lines)) =
        codec.toUtf8 (QString.ofLines lines) := by
    intro lines hlines
    rw [Link.cString_toUtf8_ofLines hcodec hlines, hcodec.toUtf8_ofLines hlines]
  cases b with
  | updateClientsCPS cps totalDevices =>
      apply htext
      simp only [List.forall_mem_cons, List.not_mem_nil, false_implies, implies_true, and_true]
      constructor
      · apply QString.AsciiLine.append (by decide)
        exact QString.asciiLine_number cps
      · apply QString.AsciiLine.append (by decide)
        exact QString.asciiLine_number totalDevices
  | updateClients jsonDoc =>
      have hheader : ∀ line ∈ [QString.latin1 "update=" ++ QString.number jsonDoc.length],
          line.AsciiLine := by
        rw [List.forall_mem_singleton]
        apply QString.AsciiLine.append (by decide)
        exact QString.asciiLine_number _
      rw [frame, wholeFrame, updateText, htext _ hheader,
        QByteArray.cString_of_notMem (hzero jsonDoc rfl)]

/-- **Every broadcast reaches every live monitor exactly once.** Whatever the order
    of connections, disconnections and broadcasts, the client list holds each live
    monitor once and no other, a disconnecting monitor is found in it and alone
    removed, and what has been written to a monitor is the frames of the
    broadcasts of its lifetime, in order, and nothing after it. -/
theorem broadcast_exactly_once (codec : TextCodec) (hcodec : codec.AsciiTransparent)
    (events : List MonitorEvent) (honce : DisconnectsOnce events) :
    let server := after codec events
    (server.clients.Nodup ∧ ∀ monitor, monitor ∈ server.clients ↔ IsLive events monitor) ∧
    (∀ before client later, events = before ++ .disconnect client :: later →
      client ∈ (after codec before).clients ∧
        ((after codec before).removeClient client).clients =
          (after codec before).clients.erase client ∧
        server.written client = (after codec before).written client) ∧
    (∀ monitor, server.written monitor = (broadcastsTo monitor events).flatMap (frame codec)) ∧
    ∀ b, (∀ jsonDoc, b = .updateClients jsonDoc → 0 ∉ jsonDoc) →
      frame codec b = wholeFrame codec b := by
  intro server
  have hhistory := historyInv_after codec events honce
  refine ⟨⟨(inv_after codec events).nodup, hhistory.mem_clients_iff⟩, ?_, hhistory.written_eq,
    frame_eq_wholeFrame hcodec⟩
  intro before client later hsplit
  have hbefore : DisconnectsOnce before := by
    rintro first other rest rfl
    exact honce first other (rest ++ .disconnect client :: later) (by simp [hsplit])
  have hthen := historyInv_after codec before hbefore
  refine ⟨?_, clients_removeClient client _, ?_⟩
  · rw [hthen.mem_clients_iff]
    exact honce before client later hsplit
  · rw [hhistory.written_eq, hthen.written_eq, broadcastsTo_of_disconnect honce hsplit]

/-- Two monitors, the first of which leaves between two broadcasts. -/
theorem broadcast_exactly_once_twoMonitors :
    let server := after TextCodec.latin1 [.incomingConnection, .incomingConnection,
      .broadcast (.updateClientsCPS 2 1), .disconnect 0,
      .broadcast (.updateClients (QByteArray.latin1 "{}"))]
    server.written 0 = QByteArray.latin1 "cps=2\ntotal_devices=1\n" ∧
      server.written 1 = QByteArray.latin1 "cps=2\ntotal_devices=1\nupdate=2\n{}" := by
  intro server
  have honce : DisconnectsOnce (([] : List MonitorEvent) ++ [.incomingConnection] ++
      [.incomingConnection] ++ [.broadcast (.updateClientsCPS 2 1)] ++ [.disconnect 0] ++
        [.broadcast (.updateClients (QByteArray.latin1 "{}"))]) := by
    simp only [disconnectsOnce_concat_iff, disconnectsOnce_nil, reduceCtorEq, false_implies,
      implies_true, and_true, true_and, MonitorEvent.disconnect.injEq, forall_eq']
    decide
  obtain ⟨-, -, hwritten, -⟩ := broadcast_exactly_once TextCodec.latin1
    TextCodec.latin1_asciiTransparent _ honce
  exact ⟨(hwritten 0).trans (by decide), (hwritten 1).trans (by decide)⟩

end IoTTracker.RemoteMonitorServer
