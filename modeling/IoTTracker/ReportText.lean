import IoTTracker.IoTServer
import IoTTracker.OrderedEntries
import Mathlib.Data.List.DropRight

/-!
# The report on the screen

The server sends its two histograms as JSON objects of decimal strings, and the
remote monitor writes each as one line a name: the name, blanks up to ten
columns, and the count. A name of ten characters or more has no blank after it,
so its last digits and those of its count run together. The text shows which
name has which count exactly when no two entries differ in where the name ends.
-/

namespace IoTTracker

open OrderedEntries (entries ofEntries)

/-- `QString(int size, QChar ch)`: empty for a size that is not positive. -/
def QString.fill (size : Int) (c : QChar) : QString := List.replicate size.toNat c

/-! ### From the server to the screen -/

/-- The objects of the report hold strings. -/
abbrev QJsonObject := Finmap fun _ : QString => QString

abbrev QJsonDocument := Finmap fun _ : QString => QJsonObject

namespace IoTServer

variable {R : Type*} (value : R ↪ Nat)

/-- One loop of `buildJsonDoc`. The counts are of any integer type; `arg` writes
    the value of each in decimal. -/
def jsonCounts (counts : Finmap fun _ : QString => R) : QJsonObject :=
  (entries counts).foldl
    (fun object i => object.insert i.1 (QString.decimal (value i.2))) ∅

def buildJsonDoc (models versions : Finmap fun _ : QString => R) : QJsonDocument :=
  let jModels := jsonCounts value models
  let jVersions := jsonCounts value versions
  (Finmap.insert (QString.latin1 "models") jModels ∅).insert (QString.latin1 "versions") jVersions

/-- The server counts in `size_t`. -/
def sizeValue : SizeT ↪ Nat := ⟨BitVec.toNat, BitVec.toNat_injective⟩

end IoTServer

/-- The two text areas of the window. -/
structure MainWindow where
  modelArea : QString
  versionArea : QString

namespace MainWindow

def space (key : QString) : QString := QString.fill (10 - key.length) 0x20

/-- One loop of `update`. -/
def reportText (object : QJsonObject) : QString :=
  (entries object).foldl
    (fun text it => text ++ it.1 ++ space it.1 ++ it.2 ++ [0x0a]) []

def update (document : QJsonDocument) : MainWindow :=
  let jModels := (document.lookup (QString.latin1 "models")).getD ∅
  let jVersions := (document.lookup (QString.latin1 "versions")).getD ∅
  ⟨reportText jModels, reportText jVersions⟩

end MainWindow

namespace ReportText

open IoTServer MainWindow

variable {R : Type*} (value : R ↪ Nat)

/-- What is shown of a histogram, in the area of the models or of the versions. -/
def shown (counts : Finmap fun _ : QString => R) : QString :=
  reportText (jsonCounts value counts)

/-- **The screen shows both histograms.** -/
theorem update_buildJsonDoc (models versions : Finmap fun _ : QString => R) :
    update (buildJsonDoc value models versions) = ⟨shown value models, shown value versions⟩ := by
  have hne : QString.latin1 "models" ≠ QString.latin1 "versions" := by decide
  rw [update, buildJsonDoc]
  simp only [Finmap.lookup_insert, Finmap.lookup_insert_of_ne _ hne, Option.getD_some, shown]

/-! ### Lines -/

def padded (name : QString) : QString := name ++ space name

def lineOf (entry : QString × Nat) : QString := padded entry.1 ++ QString.decimal entry.2

/-- The entries of a histogram in key order, their counts as numbers. -/
def numbers (counts : Finmap fun _ : QString => R) : List (QString × Nat) :=
  (entries counts).map fun i => (i.1, value i.2)

/-- A line for each name, in order, with its count. -/
def linesOf (names : Finset QString) (count : QString → Nat) : QString :=
  QString.ofLines (names.sort.map fun name => lineOf (name, count name))

/-- A name that a line of the report can carry. -/
structure IsName (name : QString) : Prop where
  newline : 0x0a ∉ name
  blank : name.getLast? ≠ some 0x20

theorem reportText_eq_ofLines (object : QJsonObject) :
    reportText object =
      QString.ofLines ((entries object).map fun it => padded it.1 ++ it.2) := by
  have hloop : ∀ (text : QString) (list : List (QString × QString)),
      list.foldl (fun text it => text ++ it.1 ++ space it.1 ++ it.2 ++ [0x0a]) text =
        text ++ QString.ofLines (list.map fun it => padded it.1 ++ it.2) := by
    intro text list
    induction list generalizing text with
    | nil => exact (List.append_nil text).symm
    | cons it list ih =>
        rw [List.foldl_cons, ih]
        simp [QString.ofLines, padded]
  exact hloop [] (entries object)

theorem shown_eq_ofLines (counts : Finmap fun _ : QString => R) :
    shown value counts = QString.ofLines ((numbers value counts).map lineOf) := by
  have hcounts : jsonCounts value counts =
      ofEntries ((entries counts).map fun i => (i.1, QString.decimal (value i.2))) := by
    rw [jsonCounts, ofEntries, List.foldl_map]
  rw [shown, reportText_eq_ofLines, hcounts,
    OrderedEntries.entries_ofEntries_map fun n => QString.decimal (value n), numbers,
    List.map_map, List.map_map]
  rfl

theorem length_padded (name : QString) : (padded name).length = max 10 name.length := by
  rw [padded, List.length_append, space, QString.fill, List.length_replicate]
  omega

/-- A name of ten characters or more is not padded at all. -/
theorem padded_eq_self {name : QString} (hname : 10 ≤ name.length) : padded name = name := by
  have hsize : (10 - (name.length : Int)).toNat = 0 := by omega
  rw [padded, space, QString.fill, hsize, List.replicate_zero, List.append_nil]

theorem rdropWhile_padded {name : QString} (hname : IsName name) :
    (padded name).rdropWhile (fun c => decide (c = 0x20)) = name := by
  rw [padded, space, QString.fill]
  induction (10 - (name.length : Int)).toNat with
  | zero =>
      rw [List.replicate_zero, List.append_nil, List.rdropWhile_eq_self_iff]
      intro hne hblank
      apply hname.blank
      rw [List.getLast?_eq_some_getLast hne, of_decide_eq_true hblank]
  | succ size ih =>
      rw [List.replicate_succ', ← List.append_assoc,
        List.rdropWhile_concat_pos (fun c : QChar => decide (c = 0x20)) _ _ rfl]
      exact ih

theorem padded_inj {name name' : QString} (hname : IsName name) (hname' : IsName name')
    (hpadded : padded name = padded name') : name = name' := by
  rw [← rdropWhile_padded hname, hpadded, rdropWhile_padded hname']

theorem newline_notMem_lineOf {entry : QString × Nat} (hname : IsName entry.1) :
    0x0a ∉ lineOf entry := by
  rw [lineOf, padded, List.mem_append, List.mem_append, space, QString.fill]
  rintro ((hmem | hmem) | hmem)
  · exact hname.newline hmem
  · exact absurd (List.eq_of_mem_replicate hmem) (by decide)
  · exact (QString.asciiLine_decimal entry.2 _ hmem).2.2 rfl

/-! ### Entries that read the same -/

/-- The first digits of the count of `entry` belong to the name of `entry'`. -/
def Shifts (entry entry' : QString × Nat) : Prop :=
  ∃ digits : QString, digits ≠ [] ∧ entry'.1 = padded entry.1 ++ digits ∧
    QString.decimal entry.2 = digits ++ QString.decimal entry'.2

theorem Shifts.length_lt {entry entry' : QString × Nat} (hshift : Shifts entry entry') :
    10 < entry'.1.length ∧ entry.1.length < entry'.1.length := by
  obtain ⟨digits, hne, hname, -⟩ := hshift
  have hdigits : 0 < digits.length := List.length_pos_of_ne_nil hne
  have hlength := length_padded entry.1
  rw [hname, List.length_append]
  omega

/-- Names of up to ten characters never run into their counts. -/
theorem not_shifts_of_length_le {entry entry' : QString × Nat} (hlength : entry'.1.length ≤ 10) :
    ¬ Shifts entry entry' :=
  fun hshift => absurd hshift.length_lt.1 (Nat.not_lt.mpr hlength)

theorem Shifts.lineOf_eq {entry entry' : QString × Nat} (hshift : Shifts entry entry') :
    lineOf entry = lineOf entry' := by
  have hlong : 10 ≤ entry'.1.length := hshift.length_lt.1.le
  obtain ⟨digits, -, hname, hcount⟩ := hshift
  rw [lineOf, lineOf, padded_eq_self hlong, hname, hcount, List.append_assoc]

def ReadAlike (entry entry' : QString × Nat) : Prop :=
  entry = entry' ∨ Shifts entry entry' ∨ Shifts entry' entry

theorem eq_or_shifts {entry entry' : QString × Nat} (hname : IsName entry.1)
    (hname' : IsName entry'.1) {digits : QString}
    (hpadded : padded entry'.1 = padded entry.1 ++ digits)
    (hcount : QString.decimal entry.2 = digits ++ QString.decimal entry'.2) :
    entry = entry' ∨ Shifts entry entry' := by
  by_cases hdigits : digits = []
  · rw [hdigits, List.append_nil] at hpadded
    rw [hdigits, List.nil_append] at hcount
    exact .inl (Prod.ext (padded_inj hname' hname hpadded).symm (QString.decimal_injective hcount))
  · right
    have hlength := congrArg List.length hpadded
    have hpos : 0 < digits.length := List.length_pos_of_ne_nil hdigits
    rw [List.length_append, length_padded, length_padded] at hlength
    have hlong : padded entry'.1 = entry'.1 := padded_eq_self (by omega)
    exact ⟨digits, hdigits, hlong.symm.trans hpadded, hcount⟩

theorem lineOf_eq_iff {entry entry' : QString × Nat} (hname : IsName entry.1)
    (hname' : IsName entry'.1) :
    lineOf entry = lineOf entry' ↔ ReadAlike entry entry' := by
  constructor
  · intro hline
    rcases List.append_eq_append_iff.mp hline with ⟨digits, hpadded, hcount⟩ |
      ⟨digits, hpadded, hcount⟩
    · exact (eq_or_shifts hname hname' hpadded hcount).imp_right .inl
    · rcases eq_or_shifts hname' hname hpadded hcount with heq | hshift
      · exact .inl heq.symm
      · exact .inr (.inr hshift)
  · rintro (rfl | hshift | hshift)
    · rfl
    · exact hshift.lineOf_eq
    · exact hshift.lineOf_eq.symm

/-! ### Histograms that read the same -/

theorem numbers_injective :
    Function.Injective (numbers value : (Finmap fun _ : QString => R) → List (QString × Nat)) := by
  have hentry : Function.Injective fun i : QString × R => (i.1, value i.2) :=
    Function.injective_id.prodMap value.injective
  exact hentry.list_map.comp OrderedEntries.entries_injective

/-- In key order the two histograms have the same entries, but for some that
    differ in which digits belong to the name and which to the count. -/
structure Confused (counts counts' : Finmap fun _ : QString => R) : Prop where
  reads : List.Forall₂ ReadAlike (numbers value counts) (numbers value counts')
  shifts : ∃ pair ∈ (numbers value counts).zip (numbers value counts'),
    Shifts pair.1 pair.2 ∨ Shifts pair.2 pair.1

/-- Histograms of these names, each counted at least once. -/
def CountsOf (names : Set QString) (counts : Finmap fun _ : QString => R) : Prop :=
  ∀ name n, counts.lookup name = some n → name ∈ names ∧ 0 < value n

/-- The report shown determines the report sent, in either area of the window and
    whatever the other one shows. -/
structure Determines (counts counts' : Finmap fun _ : QString => R) : Prop where
  models : ∀ versions versions',
    (update (buildJsonDoc value counts versions)).modelArea =
      (update (buildJsonDoc value counts' versions')).modelArea → counts = counts'
  versions : ∀ models models',
    (update (buildJsonDoc value models counts)).versionArea =
      (update (buildJsonDoc value models' counts')).versionArea → counts = counts'

variable {value} {names : Set QString} {counts counts' : Finmap fun _ : QString => R}

theorem determines_iff_shown :
    Determines value counts counts' ↔ (shown value counts = shown value counts' →
      counts = counts') := by
  constructor
  · intro hdetermines hshown
    apply hdetermines.models ∅ ∅
    rw [update_buildJsonDoc, update_buildJsonDoc, hshown]
  · intro hshown
    refine ⟨?_, ?_⟩
    · intro versions versions' hmodels
      rw [update_buildJsonDoc, update_buildJsonDoc] at hmodels
      exact hshown hmodels
    · intro models models' hversions
      rw [update_buildJsonDoc, update_buildJsonDoc] at hversions
      exact hshown hversions

theorem CountsOf.of_mem_numbers (hcounts : CountsOf value names counts) {entry : QString × Nat}
    (hmem : entry ∈ numbers value counts) :
    entry.1 ∈ names ∧ ∃ n, entry.2 = value n ∧ 0 < value n := by
  obtain ⟨⟨name, n⟩, hi, rfl⟩ := List.mem_map.mp hmem
  have hentry := hcounts name n ((OrderedEntries.mem_entries_iff counts name n).mp hi)
  exact ⟨hentry.1, n, rfl, hentry.2⟩

theorem countsOf_singleton {name : QString} {n : R} (hname : name ∈ names) (hn : 0 < value n) :
    CountsOf value names (Finmap.singleton name n) := by
  intro name' n' hlookup
  obtain rfl : name' = name := by
    rw [← Finmap.mem_singleton]
    exact Finmap.mem_of_lookup_eq_some hlookup
  rw [Finmap.lookup_singleton_eq, Option.some.injEq] at hlookup
  exact ⟨hname, hlookup ▸ hn⟩

/-- **Two histograms read the same** when their entries do, one by one. -/
theorem shown_eq_iff (hnames : ∀ name ∈ names, IsName name) (hcounts : CountsOf value names counts)
    (hcounts' : CountsOf value names counts') :
    shown value counts = shown value counts' ↔
      List.Forall₂ ReadAlike (numbers value counts) (numbers value counts') := by
  have hline : ∀ {counts : Finmap fun _ : QString => R}, CountsOf value names counts →
      ∀ line ∈ (numbers value counts).map lineOf, 0x0a ∉ line := by
    intro counts hcounts line hmem
    obtain ⟨entry, hentry, rfl⟩ := List.mem_map.mp hmem
    exact newline_notMem_lineOf (hnames _ (hcounts.of_mem_numbers hentry).1)
  have hlines : shown value counts = shown value counts' ↔
      (numbers value counts).map lineOf = (numbers value counts').map lineOf := by
    rw [shown_eq_ofLines, shown_eq_ofLines]
    exact ⟨QString.ofLines_inj (hline hcounts) (hline hcounts'), congrArg QString.ofLines⟩
  rw [hlines, ← List.forall₂_eq_eq_eq, List.forall₂_map_left_iff, List.forall₂_map_right_iff]
  simp only [List.forall₂_iff_zip]
  refine and_congr_right fun _ => forall_congr' fun entry => forall_congr' fun entry' =>
    imp_congr_right fun hpair => ?_
  obtain ⟨hmem, hmem'⟩ := List.of_mem_zip hpair
  exact lineOf_eq_iff (hnames _ (hcounts.of_mem_numbers hmem).1)
    (hnames _ (hcounts'.of_mem_numbers hmem').1)

theorem Shifts.ne {entry entry' : QString × Nat} (hshift : Shifts entry entry') :
    entry ≠ entry' := by
  rintro rfl
  exact absurd hshift.length_lt.2 (Nat.lt_irrefl _)

/-- Of two histograms that read the same, some entries shift digits if the
    histograms differ at all. -/
theorem determines_iff_not_confused (hnames : ∀ name ∈ names, IsName name)
    (hcounts : CountsOf value names counts) (hcounts' : CountsOf value names counts') :
    Determines value counts counts' ↔ ¬ Confused value counts counts' := by
  constructor
  · rintro hdetermines ⟨hreads, ⟨entry, entry'⟩, hpair, hshift⟩
    have heq := determines_iff_shown.mp hdetermines
      ((shown_eq_iff hnames hcounts hcounts').mpr hreads)
    rw [heq] at hpair
    have hself : List.Forall₂ (· = ·) (numbers value counts') (numbers value counts') :=
      List.forall₂_refl _
    obtain rfl := (List.forall₂_iff_zip.mp hself).2 hpair
    rcases hshift with hshift | hshift <;> exact hshift.ne rfl
  · rw [determines_iff_shown]
    intro hnot hshown
    have hreads := (shown_eq_iff hnames hcounts hcounts').mp hshown
    have hpairs := List.forall₂_iff_zip.mp hreads
    apply numbers_injective value
    rw [← List.forall₂_eq_eq_eq, List.forall₂_iff_zip]
    refine ⟨hpairs.1, fun {entry entry'} hpair => ?_⟩
    rcases hpairs.2 hpair with heq | hshift
    · exact heq
    · exact absurd ⟨hreads, (entry, entry'), hpair, hshift⟩ hnot

theorem numbers_singleton (name : QString) (n : R) :
    numbers value (Finmap.singleton name n) = [(name, value n)] := by
  rw [numbers, OrderedEntries.entries_singleton, List.map_singleton]

theorem not_determines_of_shifts (hnames : ∀ name ∈ names, IsName name) {name name' : QString}
    (hname : name ∈ names) (hname' : name' ∈ names) {n n' : R} (hn : 0 < value n)
    (hn' : 0 < value n') (hshift : Shifts (name, value n) (name', value n')) :
    ¬ Determines value (Finmap.singleton name n) (Finmap.singleton name' n') := by
  rw [determines_iff_not_confused hnames (countsOf_singleton hname hn)
    (countsOf_singleton hname' hn'), not_not]
  refine ⟨?_, ((name, value n), (name', value n')), ?_, .inl hshift⟩
  · rw [numbers_singleton, numbers_singleton]
    exact .cons (.inr (.inl hshift)) .nil
  · rw [numbers_singleton, numbers_singleton]
    exact List.mem_singleton_self _

/-- **When the report shown determines the report sent.** Of two histograms it is
    whether they are not confused. Of all histograms with names of a set it is
    whether no name of the set is another one, padded to ten columns, with the
    first digits of its count. -/
theorem determines_iff (value : R ↪ Nat) (names : Set QString)
    (hnames : ∀ name ∈ names, IsName name) :
    (∀ counts counts', CountsOf value names counts → CountsOf value names counts' →
      (Determines value counts counts' ↔ ¬ Confused value counts counts')) ∧
    ((∀ counts counts', CountsOf value names counts → CountsOf value names counts' →
      Determines value counts counts') ↔
      ∀ name ∈ names, ∀ name' ∈ names, ∀ n n', 0 < value n → 0 < value n' →
        ¬ Shifts (name, value n) (name', value n')) := by
  have hpair : ∀ counts counts', CountsOf value names counts → CountsOf value names counts' →
      (Determines value counts counts' ↔ ¬ Confused value counts counts') :=
    fun counts counts' => determines_iff_not_confused hnames
  refine ⟨hpair, ?_, ?_⟩
  · intro hall name hname name' hname' n n' hn hn' hshift
    exact not_determines_of_shifts hnames hname hname' hn hn' hshift
      (hall _ _ (countsOf_singleton hname hn) (countsOf_singleton hname' hn'))
  · intro hnone counts counts' hcounts hcounts'
    rw [hpair counts counts' hcounts hcounts']
    rintro ⟨-, ⟨⟨name, count⟩, name', count'⟩, hpair, hshift⟩
    obtain ⟨hmem, hmem'⟩ := List.of_mem_zip hpair
    obtain ⟨hname, n, rfl, hn⟩ := hcounts.of_mem_numbers hmem
    obtain ⟨hname', n', rfl, hn'⟩ := hcounts'.of_mem_numbers hmem'
    rcases hshift with hshift | hshift
    · exact hnone name hname name' hname' n n' hn hn' hshift
    · exact hnone name' hname' name hname n' n hn' hn hshift

/-- Names of seven characters leave room for a blank. -/
theorem determines_iff_sameLength :
    Determines sizeValue (Finmap.singleton (QString.latin1 "Model A") 12)
      (Finmap.singleton (QString.latin1 "Model B") 12) := by
  have hnames : ∀ name ∈ ({QString.latin1 "Model A", QString.latin1 "Model B"} : Set QString),
      IsName name := by
    rintro name (rfl | rfl) <;> exact ⟨by decide, by decide⟩
  refine (determines_iff sizeValue _ hnames).2.mpr ?_ _ _
    (countsOf_singleton (.inl rfl) (by decide)) (countsOf_singleton (.inr rfl) (by decide))
  intro name _ name' hname' n n' _ _
  have hlength : name'.length ≤ 10 := by
    rcases hname' with rfl | rfl <;> decide
  exact not_shifts_of_length_le hlength

/-- Twelve devices of model `Thermostat` and two of model `Thermostat1` read the
    same. -/
theorem not_determines_thermostat :
    ¬ ∀ counts counts', CountsOf sizeValue {name | IsName name} counts →
      CountsOf sizeValue {name | IsName name} counts' → Determines sizeValue counts counts' := by
  intro hall
  have hname : IsName (QString.latin1 "Thermostat") := ⟨by decide, by decide⟩
  have hname' : IsName (QString.latin1 "Thermostat1") := ⟨by decide, by decide⟩
  have hshift : Shifts (QString.latin1 "Thermostat", sizeValue 12)
      (QString.latin1 "Thermostat1", sizeValue 2) :=
    ⟨QString.latin1 "1", by decide, rfl, rfl⟩
  exact not_determines_of_shifts (fun _ hname => hname) hname hname' (by decide) (by decide) hshift
    (hall _ _ (countsOf_singleton hname (by decide)) (countsOf_singleton hname' (by decide)))

end ReportText

end IoTTracker
