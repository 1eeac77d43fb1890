import IoTTracker.ReceiveLoop
import IoTTracker.KeyedFold
import IoTTracker.Histogram
import IoTTracker.Machine
import IoTTracker.OrderedEntries
import IoTTracker.Simulation
import IoTTracker.QtText
import IoTTracker.IotClient
import IoTTracker.RecordStore
import IoTTracker.IoTServer
import IoTTracker.StoreInvariant
import IoTTracker.DeviceHistory
import IoTTracker.MetricsReport
import IoTTracker.DeviceIdentity
import IoTTracker.ScheduleIndependence
import IoTTracker.MonitorProtocol
import IoTTracker.LinkRuns
import IoTTracker.MonitorHistory
import IoTTracker.InvalidIdentity
import IoTTracker.LineEnds
import IoTTracker.ConnectionAccounting
import IoTTracker.PassProgress
import IoTTracker.MetricText
import IoTTracker.ReportText
import IoTTracker.Mutex
import IoTTracker.WorkerThreads
import IoTTracker.ThreadRefinement
import IoTTracker.ThreadRuns
import IoTTracker.Turns
import IoTTracker.ThreadProgress
import IoTTracker.LineProgress
import IoTTracker.Permanence
import IoTTracker.Fleet
import IoTTracker.MonitorWindow
import IoTTracker.TrackerSystem
import IoTTracker.ThreadedTracker
import IoTTracker.Parts
import IoTTracker.MonitorReading
import IoTTracker.ReportProgress
