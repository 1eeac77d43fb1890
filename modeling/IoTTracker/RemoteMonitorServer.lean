import IoTTracker.QtText
import IoTTracker.Machine

/-!
# The remote monitor server

The server keeps a list of connected monitors and writes every report to each of
them: the connection rate as two text lines, a document as a header line with
its size followed by its bytes. `RemoteMonitorClient::write` takes a C string,
so what it is given is written up to the first zero byte.
-/

namespace IoTTracker

/-- A `RemoteMonitorClient *`: the number of monitors connected before it. -/
abbrev MonitorPtr := Nat

inductive Broadcast where
  | updateClientsCPS (cps totalDevices : Int)
  | updateClients (jsonDoc : QByteArray)
deriving DecidableEq, Repr

inductive MonitorEvent where
  | incomingConnection
  | disconnect (client : MonitorPtr)
  | broadcast (b : Broadcast)
deriving DecidableEq, Repr

structure RemoteMonitorServer where
  clients : List MonitorPtr
  connected : Nat
  written : MonitorPtr → QByteArray

namespace RemoteMonitorServer

open QByteArray (cString)

def init : RemoteMonitorServer := ⟨[], 0, fun _ => []⟩

/-- `client->write(value)` -/
def write (value : QByteArray) (server : RemoteMonitorServer) (client : MonitorPtr) :
    RemoteMonitorServer :=
  { server with
    written := Function.update server.written client
      (server.written client ++ cString value) }

def incomingConnection (server : RemoteMonitorServer) : RemoteMonitorServer :=
  { server with
    clients := server.clients ++ [server.connected]
    connected := server.connected + 1 }

/-- `RemoteMonitorServer::removeClient`; an index that is out of range removes
    nothing. -/
def removeClient (client : MonitorPtr) (server : RemoteMonitorServer) :
    RemoteMonitorServer :=
  { server with clients := server.clients.eraseIdx (server.clients.idxOf client) }

/-- `QString("cps=%1\ntotal_devices=%2\n")` with its arguments -/
def cpsText (cps totalDevices : Int) : QString :=
  QString.ofLines
    [QString.latin1 "cps=" ++ QString.number cps,
      QString.latin1 "total_devices=" ++ QString.number totalDevices]

/-- `QString("update=%1\n")` with its argument -/
def updateText (size : Int) : QString :=
  QString.ofLines [QString.latin1 "update=" ++ QString.number size]

def updateClientsCPS (codec : TextCodec) (cps totalDevices : Int)
    (server : RemoteMonitorServer) : RemoteMonitorServer :=
  let cpsValue := codec.toUtf8 (cpsText cps totalDevices)
  server.clients.foldl (fun server client => server.write cpsValue client) server

def updateClients (codec : TextCodec) (jsonDoc : QByteArray) (server : RemoteMonitorServer) :
    RemoteMonitorServer :=
  server.clients.foldl
    (fun server client =>
      (server.write (codec.toUtf8 (updateText jsonDoc.length)) client).write jsonDoc client)
    server

def broadcast (codec : TextCodec) (b : Broadcast) (server : RemoteMonitorServer) :
    RemoteMonitorServer :=
  match b with
  | .updateClientsCPS cps totalDevices => server.updateClientsCPS codec cps totalDevices
  | .updateClients jsonDoc => server.updateClients codec jsonDoc

def machine (codec : TextCodec) : Machine RemoteMonitorServer MonitorEvent Empty where
  step server event :=
    match event with
    | .incomingConnection => (server.incomingConnection, [])
    | .disconnect client => (server.removeClient client, [])
    | .broadcast b => (server.broadcast codec b, [])

/-! ### What a broadcast writes -/

/-- The bytes one broadcast puts on the wire to each monitor. -/
def frame (codec : TextCodec) : Broadcast → QByteArray
  | .updateClientsCPS cps totalDevices => cString (codec.toUtf8 (cpsText cps totalDevices))
  | .updateClients jsonDoc =>
      cString (codec.toUtf8 (updateText jsonDoc.length)) ++ cString jsonDoc

def append (bytes : QByteArray) (server : RemoteMonitorServer) (client : MonitorPtr) :
    RemoteMonitorServer :=
  { server with
    written := Function.update server.written client (server.written client ++ bytes) }

theorem write_eq_append (value : QByteArray) (server : RemoteMonitorServer)
    (client : MonitorPtr) : server.write value client = server.append (cString value) client :=
  rfl

theorem append_append (first second : QByteArray) (server : RemoteMonitorServer)
    (client : MonitorPtr) :
    (server.append first client).append second client =
      server.append (first ++ second) client := by
  simp [append]

theorem broadcast_eq_foldl (codec : TextCodec) (b : Broadcast) (server : RemoteMonitorServer) :
    server.broadcast codec b =
      server.clients.foldl (fun server client => server.append (frame codec b) client)
        server := by
  cases b with
  | updateClientsCPS cps totalDevices => rfl
  | updateClients jsonDoc =>
      simp only [broadcast, updateClients, write_eq_append, append_append]
      rfl

@[simp] theorem clients_foldl_append (bytes : QByteArray) (clients : List MonitorPtr)
    (server : RemoteMonitorServer) :
    (clients.foldl (fun server client => server.append bytes client) server).clients =
      server.clients := by
  induction clients generalizing server with
  | nil => rfl
  | cons client clients ih => exact ih (server.append bytes client)

@[simp] theorem connected_foldl_append (bytes : QByteArray) (clients : List MonitorPtr)
    (server : RemoteMonitorServer) :
    (clients.foldl (fun server client => server.append bytes client) server).connected =
      server.connected := by
  induction clients generalizing server with
  | nil => rfl
  | cons client clients ih => exact ih (server.append bytes client)

theorem written_foldl_append (bytes : QByteArray) (monitor : MonitorPtr) :
    ∀ {clients : List MonitorPtr} (server : RemoteMonitorServer), clients.Nodup →
      (clients.foldl (fun server client => server.append bytes client) server).written monitor =
        server.written monitor ++ if monitor ∈ clients then bytes else [] := by
  intro clients
  induction clients with
  | nil =>
      intro server _
      simp
  | cons client clients ih =>
      intro server hnodup
      obtain ⟨hnew, hrest⟩ := List.nodup_cons.mp hnodup
      rw [List.foldl_cons, ih (server.append bytes client) hrest]
      by_cases hmonitor : monitor = client
      · subst hmonitor
        simp [append, hnew]
      · simp [append, hmonitor]

theorem written_broadcast (codec : TextCodec) (b : Broadcast) {server : RemoteMonitorServer}
    (hnodup : server.clients.Nodup) (monitor : MonitorPtr) :
    (server.broadcast codec b).written monitor =
      server.written monitor ++ if monitor ∈ server.clients then frame codec b else [] := by
  rw [broadcast_eq_foldl]
  exact written_foldl_append (frame codec b) monitor server hnodup

@[simp] theorem clients_broadcast (codec : TextCodec) (b : Broadcast)
    (server : RemoteMonitorServer) : (server.broadcast codec b).clients = server.clients := by
  rw [broadcast_eq_foldl, clients_foldl_append]

@[simp] theorem connected_broadcast (codec : TextCodec) (b : Broadcast)
    (server : RemoteMonitorServer) :
    (server.broadcast codec b).connected = server.connected := by
  rw [broadcast_eq_foldl, connected_foldl_append]

/-! ### The invariant of the client list -/

structure Inv (server : RemoteMonitorServer) : Prop where
  nodup : server.clients.Nodup
  lt_connected : ∀ client ∈ server.clients, client < server.connected
  written_eq : ∀ client, server.connected ≤ client → server.written client = []

theorem inv_step (codec : TextCodec) {server : RemoteMonitorServer} (hinv : server.Inv)
    (event : MonitorEvent) : ((machine codec).step server event).1.Inv := by
  cases event with
  | incomingConnection =>
      refine ⟨?_, ?_, ?_⟩
      · refine List.nodup_append.mpr ⟨hinv.nodup, List.nodup_singleton _, ?_⟩
        rintro client hclient other hother rfl
        rw [List.mem_singleton.mp hother] at hclient
        exact Nat.lt_irrefl _ (hinv.lt_connected _ hclient)
      · intro client hclient
        rcases List.mem_append.mp hclient with hold | hnew
        · exact Nat.lt_succ_of_lt (hinv.lt_connected client hold)
        · rw [List.mem_singleton.mp hnew]
          exact Nat.lt_succ_self _
      · intro client hclient
        exact hinv.written_eq client (Nat.le_of_succ_le hclient)
  | disconnect client =>
      refine ⟨hinv.nodup.eraseIdx _, ?_, hinv.written_eq⟩
      intro other hother
      exact hinv.lt_connected other ((List.eraseIdx_sublist _ _).subset hother)
  | broadcast b =>
      change (server.broadcast codec b).Inv
      refine ⟨?_, ?_, ?_⟩
      · rw [clients_broadcast]
        exact hinv.nodup
      · rw [clients_broadcast, connected_broadcast]
        exact hinv.lt_connected
      · intro client hclient
        rw [connected_broadcast] at hclient
        have hnot : client ∉ server.clients := fun hmem =>
          Nat.not_le_of_lt (hinv.lt_connected client hmem) hclient
        rw [written_broadcast codec b hinv.nodup, hinv.written_eq client hclient, if_neg hnot]
        rfl

abbrev after (codec : TextCodec) (events : List MonitorEvent) : RemoteMonitorServer :=
  (machine codec).run init events

theorem inv_after (codec : TextCodec) (events : List MonitorEvent) : (after codec events).Inv :=
  (machine codec).run_induction (P := Inv) (fun _ event hinv => inv_step codec hinv event)
    ⟨List.nodup_nil, by simp [init], fun _ _ => rfl⟩ events

/-- **A monitor receives the frames of all broadcasts, in order.** -/
theorem written_run_broadcasts (codec : TextCodec) (broadcasts : List Broadcast)
    (monitor : MonitorPtr) : ∀ {server : RemoteMonitorServer}, server.Inv →
      monitor ∈ server.clients →
      ((machine codec).run server (broadcasts.map .broadcast)).written monitor =
        server.written monitor ++ broadcasts.flatMap (frame codec) := by
  induction broadcasts with
  | nil =>
      intro server _ _
      simp
  | cons b broadcasts ih =>
      intro server hinv hmonitor
      have hnext := inv_step codec hinv (.broadcast b)
      have hmem : monitor ∈ ((machine codec).step server (.broadcast b)).1.clients := by
        change monitor ∈ (server.broadcast codec b).clients
        rwa [clients_broadcast]
      have hframe : ((machine codec).step server (.broadcast b)).1.written monitor =
          server.written monitor ++ frame codec b := by
        have hbroadcast := written_broadcast codec b hinv.nodup monitor
        rwa [if_pos hmonitor] at hbroadcast
      have hwritten := ih hnext hmem
      rw [hframe] at hwritten
      rw [List.flatMap_cons, ← List.append_assoc, ← hwritten]
      rfl

end RemoteMonitorServer

end IoTTracker
