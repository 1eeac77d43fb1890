import IoTTracker.ThreadedTracker
import IoTTracker.Parts

/-!
# Monitors while they read

A monitor's socket delivers what was written to it in pieces, so a window is seen
long before everything has been read. What it shows then is what the server has
told up to some moment, which only moves forward; between the two lines of a rate
message the first label alone is one message ahead. Monitors that connected at
different times come to show the same.
-/

namespace IoTTracker

open Parts (Reaches)

/-! ### What a window shows in between -/

/-- The signals by which a monitor is told an output. -/
def ServerOutput.signals (json : JsonText) (output : ServerOutput) : List LinkSignal :=
  (output.broadcasts json).flatMap Broadcast.signals

namespace MonitorWindow

/-- The window shows what was told up to some point, or this with the first label of
    the rate that was told next. -/
def ShowsUpTo (told done : List ServerOutput) (window : MonitorWindow) : Prop :=
  window = .showing (lastRate done) (lastReport done) ∨
    ∃ cps totalDevices, done ++ [.updateClientsCPS cps totalDevices] <+: told ∧
      window = { showing (lastRate done) (lastReport done) with
        cpsLabel := QString.latin1 "CPS: " ++ QString.number cps }

variable {json : JsonText} {told done : List ServerOutput} {received : List LinkSignal}

theorem proper_prefix_pair {β : Type*} {first second : β} {part : List β}
    (hpart : part <+: [first, second]) (hpos : part ≠ []) (hproper : part ≠ [first, second]) :
    part = [first] := by
  rcases List.prefix_cons_iff.mp hpart with hnone | ⟨rest, rfl, hrest⟩
  · exact absurd hnone hpos
  · rcases List.prefix_cons_iff.mp hrest with rfl | ⟨tail, rfl, htail⟩
    · rfl
    · exact absurd (congrArg _ (congrArg _ (List.prefix_nil.mp htail))) hproper

/-- **No message is shown in part** but for the labels of a rate, which come one by one. -/
theorem showsUpTo_slots (hcarries : json.CarriesAll told)
    (hreaches : Reaches (ServerOutput.signals json) told done received)
    (hreceived : received <+: told.flatMap (ServerOutput.signals json)) :
    ShowsUpTo told done (received.foldl (slot json) buildGui) := by
  have hdone : (done.flatMap (ServerOutput.signals json)).foldl (slot json) buildGui =
      showing (lastRate done) (lastReport done) := by
    rw [← slots_told (hcarries.of_prefix hreaches.done_prefix), List.flatMap_assoc]
    rfl
  rcases hreaches.eq_or_part hreceived with rfl | ⟨next, part, hnext, hpart, hpos, hproper, rfl⟩
  · exact .inl hdone
  · cases next with
    | updateClientsCPS cps totalDevices =>
        refine .inr ⟨cps, totalDevices, hnext, ?_⟩
        rw [proper_prefix_pair hpart hpos hproper, List.foldl_append, hdone]
        simp only [List.foldl_cons, List.foldl_nil, slot, updateCps, QString.trimmed_number]
    | buildJsonDoc models versions =>
        rcases List.prefix_cons_iff.mp (hpart : part <+: .update _ :: []) with
          hnone | ⟨rest, hsome, hrest⟩
        · exact absurd hnone hpos
        · exact absurd (hsome.trans (congrArg _ (List.prefix_nil.mp hrest))) hproper
    | newConnection worker => exact absurd (List.prefix_nil.mp hpart) hpos

end MonitorWindow

/-! ### Two looks at a monitor -/

section Watches

variable {σ ε : Type*} {M : Machine σ ε ServerOutput} {codec : TextCodec} {json : JsonText}

/-- What is written to a monitor that is told these outputs. -/
def bytesOf (codec : TextCodec) (json : JsonText) (told : List ServerOutput) : QByteArray :=
  (told.flatMap (ServerOutput.broadcasts json)).flatMap (RemoteMonitorServer.frame codec)

/-- What a monitor shows when these bytes have arrived: all that has arrived in full, and
    maybe the first label of a rate. -/
structure ShowsArrived (codec : TextCodec) (json : JsonText) (told : List ServerOutput)
    (arrived : QByteArray) (done : List ServerOutput) (window : MonitorWindow) : Prop where
  done_prefix : done <+: told
  latest : ∀ full, full <+: told → bytesOf codec json full <+: arrived → full <+: done
  shows : window.ShowsUpTo told done

theorem emitted_bytesOf (hcodec : codec.AsciiTransparent) {told : List ServerOutput}
    (hcarries : json.CarriesAll told) {link : Link} (hmode : link.binaryMode = false) :
    ((Link.rxLoop codec).drain link (bytesOf codec json told)).emitted =
      told.flatMap (ServerOutput.signals json) := by
  obtain ⟨next, -, hdrain⟩ := Link.drain_frames hcodec (sendable_of_mem_broadcasts hcarries) hmode
  rw [bytesOf, hdrain, List.flatMap_assoc]
  rfl

theorem showsArrived_drain (hcodec : codec.AsciiTransparent) {told done : List ServerOutput}
    (hcarries : json.CarriesAll told) {link : Link} (hmode : link.binaryMode = false)
    {arrived : QByteArray} (harrived : arrived <+: bytesOf codec json told)
    (hreaches : Reaches (ServerOutput.signals json) told done
      ((Link.rxLoop codec).drain link arrived).emitted) :
    ShowsArrived codec json told arrived done
      (((Link.rxLoop codec).drain link arrived).emitted.foldl (MonitorWindow.slot json)
        MonitorWindow.buildGui) where
  done_prefix := hreaches.done_prefix
  latest := by
    rintro full hfull ⟨rest, rfl⟩
    apply hreaches.latest full hfull
    rw [← emitted_bytesOf hcodec (hcarries.of_prefix hfull) hmode]
    exact (Link.rxLoop codec).prefix_emitted_drain link _ rest
  shows := by
    obtain ⟨rest, hrest⟩ := harrived
    apply MonitorWindow.showsUpTo_slots hcarries hreaches
    rw [← emitted_bytesOf hcodec hcarries hmode, ← hrest]
    exact (Link.rxLoop codec).prefix_emitted_drain link _ rest

/-- **A window moves forward only.** Looked at twice while it is read what was written to
    it, a monitor shows what was told up to one point, then up to the same or a later,
    both times all that has arrived in full. -/
theorem Watches.moves_forward (hcodec : codec.AsciiTransparent) {s : σ}
    {before later : List (ε ⊕ MonitorEvent)} {link : Link}
    {read more unread : List QByteArray}
    (hwatches : Watches M codec json s before later link (read ++ more ++ unread)) :
    let told := M.outputs (M.run s (Machine.upstream before)) (Machine.upstream later)
    ∃ (monitor monitor' : Monitor) (done done' : List ServerOutput),
      (Monitor.machine codec json).run (some ⟨link, [], MonitorWindow.buildGui⟩)
          (read.map .readyRead) = some monitor ∧
        (Monitor.machine codec json).run (some ⟨link, [], MonitorWindow.buildGui⟩)
          ((read ++ more).map .readyRead) = some monitor' ∧
        done <+: done' ∧
        ShowsArrived codec json told read.flatten done monitor.window ∧
        ShowsArrived codec json told (read ++ more).flatten done' monitor'.window := by
  intro told
  have hall : (read ++ more).flatten ++ unread.flatten = bytesOf codec json told := by
    rw [← List.flatten_append]
    exact hwatches.flatten_chunks
  have hmore : (read ++ more).flatten <+: bytesOf codec json told := ⟨_, hall⟩
  have hread : read.flatten <+: (read ++ more).flatten := by
    rw [List.flatten_append]
    exact List.prefix_append _ _
  have hreaches : ∀ arrived, ∃ done, Reaches (ServerOutput.signals json) told done
      ((Link.rxLoop codec).drain link arrived).emitted := fun _ => Parts.exists_reaches _ _
  obtain ⟨done, hdone⟩ := hreaches read.flatten
  obtain ⟨done', hdone'⟩ := hreaches (read ++ more).flatten
  refine ⟨_, _, done, done', Monitor.run_readyRead_eq_drain hwatches.lineMode read,
    Monitor.run_readyRead_eq_drain hwatches.lineMode (read ++ more), ?_,
    showsArrived_drain hcodec hwatches.carries hwatches.lineMode (hread.trans hmore) hdone,
    showsArrived_drain hcodec hwatches.carries hwatches.lineMode hmore hdone'⟩
  apply hdone.mono hdone'
  rw [List.flatten_append]
  exact (Link.rxLoop codec).prefix_emitted_drain link _ more.flatten

open ThreadState in
/-- What is written to the monitor that connects when both clients have phoned home. -/
def writtenAfterPhoneHome : QByteArray :=
  writtenTo (machine TextCodec.latin1 (fun _ => ⟨0, 0, 0⟩) 1 (id : Bool → Bool))
    TextCodec.latin1 (oneDevice "Model A" "2.4") (init 0) (phonesHome.map .inl) passAndMeasure

open ThreadState in
/-- Seen within a document, and between the two lines of a rate. -/
theorem moves_forward_phonesHome :
    let M := machine TextCodec.latin1 (fun _ => ⟨0, 0, 0⟩) 1 (id : Bool → Bool)
    let told := M.outputs (M.run (init 0) (Machine.upstream
      (phonesHome.map .inl : List (ThreadEvent Bool Bool ⊕ MonitorEvent))))
        (Machine.upstream passAndMeasure)
    let chunks := [writtenAfterPhoneHome.take 50, (writtenAfterPhoneHome.drop 50).take 59]
    ∃ monitor done, (Monitor.machine TextCodec.latin1 (oneDevice "Model A" "2.4")).run
        (some ⟨⟨-8, false⟩, [], MonitorWindow.buildGui⟩) (chunks.map .readyRead) = some monitor ∧
      ShowsArrived TextCodec.latin1 (oneDevice "Model A" "2.4") told chunks.flatten done
        monitor.window := by
  intro M told chunks
  have hwatches : Watches M TextCodec.latin1 (oneDevice "Model A" "2.4") (init 0)
      (phonesHome.map .inl) passAndMeasure ⟨-8, false⟩
      ([writtenAfterPhoneHome.take 50] ++ [(writtenAfterPhoneHome.drop 50).take 59] ++
        [(writtenAfterPhoneHome.drop 50).drop 59]) :=
    { watches_passAndMeasure with
      read := by
        simp only [List.flatten_append, List.flatten_singleton, List.append_assoc,
          List.take_append_drop]
        rfl }
  obtain ⟨-, monitor, -, done, -, hrun, -, -, hshows⟩ :=
    hwatches.moves_forward TextCodec.latin1_asciiTransparent
  exact ⟨monitor, done, hrun, hshows⟩

/-- The latest output of a kind does not depend on when one began to listen. -/
theorem last_output_append {β : Type*} (kind : ServerOutput → Option β) (s : σ)
    {events recent : List ε}
    (hlast : ((M.outputs (M.run s events) recent).filterMap kind).getLast? ≠ none) :
    ((M.outputs s (events ++ recent)).filterMap kind).getLast? =
      ((M.outputs (M.run s events) recent).filterMap kind).getLast? := by
  obtain ⟨value, hvalue⟩ := Option.ne_none_iff_exists'.mp hlast
  rw [Machine.outputs_append, List.filterMap_append, List.getLast?_append, hvalue, Option.some_or]

/-- **Monitors come to agree.** Of two monitors that stay, the labels are the same once a
    rate has been told since the later one connected, and the areas once a report has. -/
theorem Watches.agree (hcodec : codec.AsciiTransparent) {s : σ}
    {before mid later : List (ε ⊕ MonitorEvent)} {link link' : Link}
    {chunks chunks' : List QByteArray}
    (hfirst : Watches M codec json s before (mid ++ .inr .incomingConnection :: later)
      link chunks)
    (hsecond : Watches M codec json s (before ++ .inr .incomingConnection :: mid) later
      link' chunks') :
    let told := M.outputs (M.run s (Machine.upstream (before ++ .inr .incomingConnection :: mid)))
      (Machine.upstream later)
    ∃ monitor monitor' : Monitor,
      (Monitor.machine codec json).run (some ⟨link, [], MonitorWindow.buildGui⟩)
          (chunks.map .readyRead) = some monitor ∧
        (Monitor.machine codec json).run (some ⟨link', [], MonitorWindow.buildGui⟩)
          (chunks'.map .readyRead) = some monitor' ∧
        (lastRate told ≠ none →
          monitor.window.cpsLabel = monitor'.window.cpsLabel ∧
            monitor.window.totalDevicesLabel = monitor'.window.totalDevicesLabel) ∧
        (lastReport told ≠ none → monitor.window.toMainWindow = monitor'.window.toMainWindow) := by
  intro told
  obtain ⟨next, -, hrun⟩ := hfirst.window hcodec
  obtain ⟨next', -, hrun'⟩ := hsecond.window hcodec
  have hstate : M.run s (Machine.upstream (before ++ .inr .incomingConnection :: mid)) =
      M.run (M.run s (Machine.upstream before)) (Machine.upstream mid) := by
    rw [Machine.upstream_append, Machine.run_append]
    rfl
  have hlater : Machine.upstream (mid ++ .inr .incomingConnection :: later) =
      Machine.upstream mid ++ Machine.upstream later :=
    Machine.upstream_append _ _
  have htold : told = M.outputs (M.run (M.run s (Machine.upstream before))
      (Machine.upstream mid)) (Machine.upstream later) := by
    rw [← hstate]
  refine ⟨_, _, hrun, hrun', ?_, ?_⟩
  · intro hrate
    rw [htold] at hrate
    have hsame := last_output_append ServerOutput.rate? _ hrate
    rw [hlater, hstate]
    simp only [MonitorWindow.showing, lastRate, hsame, and_self]
  · intro hreport
    rw [htold] at hreport
    have hsame := last_output_append ServerOutput.report? _ hreport
    rw [hlater, hstate]
    simp only [MonitorWindow.showing, lastReport, hsame]

open ThreadState in
/-- One monitor connects before the clients phone home, the other after. -/
theorem agree_phonesHome :
    let M := machine TextCodec.latin1 (fun _ => ⟨0, 0, 0⟩) 1 (id : Bool → Bool)
    let json := oneDevice "Model A" "2.4"
    let monitor := Monitor.machine TextCodec.latin1 json
    let begins := some (⟨⟨-8, false⟩, [], MonitorWindow.buildGui⟩ : Monitor)
    ∃ first second,
      monitor.run begins [.readyRead (writtenTo M TextCodec.latin1 json (init 0) []
        (phonesHome.map .inl ++ .inr .incomingConnection :: passAndMeasure))] = some first ∧
      monitor.run begins [.readyRead (writtenTo M TextCodec.latin1 json (init 0)
        ([] ++ .inr .incomingConnection :: phonesHome.map .inl) passAndMeasure)] = some second ∧
      first.window.toMainWindow = second.window.toMainWindow := by
  intro M json monitor begins
  have hwatches : ∀ before later : List (ThreadEvent Bool Bool ⊕ MonitorEvent),
      SocketsOnly later → (∀ client, .inr (.disconnect client) ∉ later) →
      (M.outputs (M.run (init 0) (Machine.upstream before))
        (Machine.upstream later)).filterMap ServerOutput.report? =
          [(Finmap.singleton (QString.latin1 "Model A") 1,
            Finmap.singleton (QString.latin1 "2.4") 1)] →
      Watches M TextCodec.latin1 json (init 0) before later ⟨-8, false⟩
        [writtenTo M TextCodec.latin1 json (init 0) before later] := by
    intro before later hsockets hstays hreports
    exact ⟨hsockets, hstays _, carriesAll_oneDevice hreports (by decide) (by decide), rfl,
      List.flatten_singleton⟩
  obtain ⟨first, second, hfirst, hsecond, -, hareas⟩ :=
    (hwatches [] (phonesHome.map .inl ++ .inr .incomingConnection :: passAndMeasure)
      (by simp [SocketsOnly, passAndMeasure]) (by simp [passAndMeasure]) (by decide)).agree
        TextCodec.latin1_asciiTransparent
    (hwatches ([] ++ .inr .incomingConnection :: phonesHome.map .inl) passAndMeasure
      (by simp [SocketsOnly, passAndMeasure]) (by simp [passAndMeasure]) (by decide))
  exact ⟨first, second, hfirst, hsecond, hareas (by decide)⟩

end Watches

end IoTTracker
