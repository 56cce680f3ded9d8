import MifirReport.Command.Run
import MifirReport.Proofs.Batch.Faultless
import MifirReport.Proofs.Batch.KeepGoing
import Mathlib.Tactic.SplitIfs

/-!
# The status of the command

Arguments that are accepted name a target (`exists_target_of_readArguments`). The command first
settles the mode (`perform_chooseMode`) : a client table that cannot be loaded, or a name of no
mode, ends it with status 1 before anything is written. Otherwise it converts the inputs in that
mode, and the status is 0 just if nothing failed; all transactions of all inputs are then in the
output (`execute_convert`).
-/

namespace MifirReport.Command

open Batch Client Files Report Table Disk

/-! ## Arguments that are accepted -/

theorem exists_of_bind_eq_ok {ε α β : Type} {x : Except ε α} {f : α → Except ε β} {b : β}
    (h : x >>= f = .ok b) : ∃ a, x = .ok a ∧ f a = .ok b := by
  cases x with
  | error e => cases h
  | ok a => exact ⟨a, rfl, h⟩

section Accepted

variable {arguments accepted : Arguments} {waiting : Option Waiting} {words rest : List String}
  {word : String}

theorem check_of_leave
    (h : (do leave waiting; .convert <$> arguments.check) = Except.ok (Request.convert accepted)) :
    arguments.check = .ok accepted := by
  obtain ⟨-, -, h⟩ := exists_of_bind_eq_ok h
  cases hcheck : arguments.check with
  | error cause =>
    rw [hcheck] at h
    cases h
  | ok checked =>
    rw [hcheck] at h
    cases h
    rfl

/-- Reading a word goes on with the next, or ends with a check. -/
theorem readFrom_cons_eq_ok
    (h : readFrom arguments waiting (word :: rest) = .ok (.convert accepted)) :
    arguments.check = .ok accepted ∨
      ∃ arguments' waiting', readFrom arguments' waiting' rest = .ok (.convert accepted) := by
  rw [readFrom.eq_def] at h
  dsimp -zeta only at h
  extract_lets takeOption at h
  have hoption : ∀ meaning value, takeOption meaning value = .ok (.convert accepted) →
      ∃ arguments' waiting', readFrom arguments' waiting' rest = .ok (.convert accepted) := by
    intro meaning value h
    simp only [takeOption] at h
    split at h
    · cases h
    · obtain ⟨-, -, h⟩ := exists_of_bind_eq_ok h
      obtain ⟨_, -, h⟩ := exists_of_bind_eq_ok h
      exact ⟨_, _, h⟩
    · obtain ⟨-, -, h⟩ := exists_of_bind_eq_ok h
      exact ⟨_, _, h⟩
    · obtain ⟨-, -, h⟩ := exists_of_bind_eq_ok h
      obtain ⟨_, -, h⟩ := exists_of_bind_eq_ok h
      exact ⟨_, _, h⟩
    · cases h
    · obtain ⟨-, -, h⟩ := exists_of_bind_eq_ok h
      cases h
    · cases h
  cases hform : formOf word with
  | mark =>
    rw [hform] at h
    cases rest with
    | nil => exact Or.inl (check_of_leave h)
    | cons => cases h
  | long name value =>
    rw [hform] at h
    exact Or.inr (hoption _ _ h)
  | short letter cs =>
    rw [hform] at h
    exact Or.inr (hoption _ _ h)
  | value =>
    rw [hform] at h
    rcases waiting with _ | ⟨setting, hasValue⟩
    · cases h
    · obtain ⟨_, -, h⟩ := exists_of_bind_eq_ok h
      exact Or.inr ⟨_, _, h⟩

theorem check_of_readFrom (h : readFrom arguments waiting words = .ok (.convert accepted)) :
    ∃ checked : Arguments, checked.check = .ok accepted := by
  induction words generalizing arguments waiting with
  | nil =>
    rw [readFrom.eq_def] at h
    exact ⟨arguments, check_of_leave h⟩
  | cons word rest ih =>
    rcases readFrom_cons_eq_ok h with h | ⟨arguments', waiting', h⟩
    · exact ⟨arguments, h⟩
    · exact ih h

/-- Arguments that are accepted name a target. -/
theorem exists_target_of_readArguments (h : readArguments words = .ok (.convert arguments)) :
    ∃ target, target? arguments = some target := by
  obtain ⟨checked, hchecked⟩ := check_of_readFrom h
  unfold Arguments.check at hchecked
  split_ifs at hchecked with hinputs hboth hnone hwarn
  obtain rfl := Except.ok.inj hchecked
  unfold target?
  cases houtput : checked.output with
  | some path => exact ⟨_, rfl⟩
  | none =>
    cases hdirectory : checked.outputDirectory with
    | some path => exact ⟨_, rfl⟩
    | none => simp [houtput, hdirectory] at hnone

end Accepted

/-! ## The mode -/

/-- What a client table comes to : no client if there is no table, or if the extension of the file
is another, and otherwise the client that it names. -/
inductive Loads (disk : Disk) : Option String → Option String → Prop
  | absent : Loads disk none none
  | ignored {path : String} (hextension : Path.extension? path ≠ some "csv") :
    Loads disk (some path) none
  | table {path client : String} {table : ByteArray} (hextension : Path.extension? path = some "csv")
    (hread : disk.read path = .ok table) (hclient : clientOfTable table = .ok client) :
    Loads disk (some path) (some client)

theorem Loads.unique {disk : Disk} {table client client' : Option String}
    (h : Loads disk table client) (h' : Loads disk table client') : client = client' := by
  cases h with
  | absent => cases h'; rfl
  | ignored hextension =>
    cases h' with
    | ignored => rfl
    | table hextension' => exact absurd hextension' hextension
  | table hextension hread hclient =>
    cases h' with
    | ignored hextension' => exact absurd hextension hextension'
    | table _ hread' hclient' =>
      rw [hread] at hread'
      cases hread'
      rw [hclient] at hclient'
      cases hclient'
      rfl

/-- The mode that is named, or else that of the client, or else the standard one. -/
def modeFor? (named client : Option String) : Option ClientMode :=
  match named with
  | some name => ClientMode.ofName? name
  | none => some (client.elim .standard .ofClient)

/-- The client table cannot be loaded, or what is named is no mode. -/
def Refused (disk : Disk) (arguments : Arguments) : Prop :=
  (∀ client, ¬Loads disk arguments.clientTable client) ∨
    ∃ name, arguments.clientMode = some name ∧ ClientMode.ofName? name = none

variable {disk disk' : Disk} {arguments : Arguments} {words : List String}

/-- Reading the client table leaves the disk as it is. -/
theorem perform_clientOfFile (disk : Disk) (path : String) :
    (∃ client, Loads disk (some path) client ∧
        disk.perform (clientOfFile Disk.storage path) = (.ok (client.getD ""), disk)) ∨
      (∀ client, ¬Loads disk (some path) client) ∧
        ∃ error, disk.perform (clientOfFile Disk.storage path) = (.error error, disk) := by
  unfold clientOfFile
  by_cases hextension : Path.extension? path = some "csv"
  · rw [if_pos hextension, perform_bind, perform_read]
    cases hread : disk.read path with
    | error cause =>
      refine Or.inr ⟨?_, _, rfl⟩
      rintro client (_ | hother | ⟨-, hread', -⟩)
      · exact hother hextension
      · rw [hread] at hread'
        cases hread'
    | ok table =>
      dsimp only
      cases hclient : clientOfTable table with
      | error cause =>
        refine Or.inr ⟨?_, _, rfl⟩
        rintro client (_ | hother | ⟨-, hread', hclient'⟩)
        · exact hother hextension
        · rw [hread] at hread'
          cases hread'
          rw [hclient] at hclient'
          cases hclient'
      | ok client => exact Or.inl ⟨some client, .table hextension hread hclient, rfl⟩
  · rw [if_neg hextension]
    exact Or.inl ⟨none, .ignored hextension, rfl⟩

/-- The mode that a name and a client come to, unless the name is that of no mode. -/
def settle (named : Option String) (client : String) : Except Error ClientMode :=
  match named with
  | none => .ok (.ofClient client)
  | some name =>
    match ClientMode.ofName? name with
    | none => .error (.unknownMode name)
    | some mode => .ok mode

theorem settle_getD (named client : Option String) :
    (∃ mode, modeFor? named client = some mode ∧ settle named (client.getD "") = .ok mode) ∨
      ∃ name, named = some name ∧ ClientMode.ofName? name = none ∧
        settle named (client.getD "") = .error (.unknownMode name) := by
  cases named with
  | none =>
    cases client with
    | none => exact Or.inl ⟨.standard, rfl, by decide⟩
    | some client => exact Or.inl ⟨.ofClient client, rfl, rfl⟩
  | some name =>
    unfold settle modeFor?
    cases hname : ClientMode.ofName? name with
    | none => exact Or.inr ⟨name, rfl, hname, by simp only [hname]⟩
    | some mode => exact Or.inl ⟨mode, hname, by simp only [hname]⟩

/-- The client table is loaded first, whatever is named. -/
theorem perform_chooseMode_eq (disk : Disk) (arguments : Arguments) :
    (∃ client, Loads disk arguments.clientTable client ∧
        disk.perform (chooseMode Disk.storage arguments) =
          (settle arguments.clientMode (client.getD ""), disk)) ∨
      (∀ client, ¬Loads disk arguments.clientTable client) ∧
        ∃ error, disk.perform (chooseMode Disk.storage arguments) = (.error error, disk) := by
  unfold chooseMode settle
  cases arguments.clientTable with
  | none =>
    refine Or.inl ⟨none, .absent, ?_⟩
    cases arguments.clientMode with
    | none => rfl
    | some name =>
      dsimp only [perform_bind, perform_pure]
      cases ClientMode.ofName? name <;> rfl
  | some path =>
    rcases perform_clientOfFile disk path with ⟨client, hloads, hread⟩ | ⟨hnone, error, hread⟩
    · refine Or.inl ⟨client, hloads, ?_⟩
      simp only [perform_bind, hread]
      cases arguments.clientMode with
      | none => rfl
      | some name =>
        dsimp only
        cases ClientMode.ofName? name <;> rfl
    · refine Or.inr ⟨hnone, error, ?_⟩
      simp only [perform_bind, hread]
      rfl

/-- The mode is settled or the arguments are refused, and the disk is left as it is. -/
theorem perform_chooseMode (disk : Disk) (arguments : Arguments) :
    (∃ client mode, Loads disk arguments.clientTable client ∧
        modeFor? arguments.clientMode client = some mode ∧
        disk.perform (chooseMode Disk.storage arguments) = (.ok mode, disk)) ∨
      Refused disk arguments ∧
        ∃ error, disk.perform (chooseMode Disk.storage arguments) = (.error error, disk) := by
  rcases perform_chooseMode_eq disk arguments with ⟨client, hloads, hchoose⟩ | ⟨hnone, herror⟩
  · rcases settle_getD arguments.clientMode client with
      ⟨mode, hmode, hsettle⟩ | ⟨name, hnamed, hname, hsettle⟩
    · exact Or.inl ⟨client, mode, hloads, hmode, by rw [hchoose, hsettle]⟩
    · exact Or.inr ⟨Or.inr ⟨name, hnamed, hname⟩, _, by rw [hchoose, hsettle]⟩
  · exact Or.inr ⟨Or.inl hnone, herror⟩

/-- No mode is settled by arguments that are refused. -/
theorem Refused.modeFor?_eq_none (h : Refused disk arguments) {client : Option String}
    (hloads : Loads disk arguments.clientTable client) :
    modeFor? arguments.clientMode client = none := by
  rcases h with hnone | ⟨name, hnamed, hname⟩
  · exact absurd hloads (hnone client)
  · rw [hnamed, modeFor?, hname]

/-! ## The outcome -/

/-- The settings under which the inputs are converted. -/
def Arguments.settings (arguments : Arguments) (mode : ClientMode) (target : Target)
    (time : Timestamp) : Settings where
  mode
  policy := if arguments.keepGoing then .keepGoing else .failFast
  target
  time

variable {time : Timestamp}

theorem perform_execute_of_error {error : Error}
    (hwords : readArguments words = .ok (.convert arguments))
    (h : disk.perform (convert Disk.storage time arguments) = (.error error, disk')) :
    ∃ messages, disk.perform (execute Disk.storage time words) = (⟨1, messages⟩, disk') := by
  simp only [execute, hwords, perform_bind, h]
  exact ⟨_, rfl⟩

theorem perform_execute_of_ok {converted : Bool}
    (hwords : readArguments words = .ok (.convert arguments))
    (h : disk.perform (convert Disk.storage time arguments) = (.ok converted, disk')) :
    ∃ messages, disk.perform (execute Disk.storage time words) =
      (⟨if converted then 0 else 1, messages⟩, disk') := by
  simp only [execute, hwords, perform_bind, h]
  cases converted <;> exact ⟨_, rfl⟩

/-- With a mode the command runs the conversion, and its status tells whether nothing failed. -/
theorem perform_execute_of_mode {mode : ClientMode} {target : Target}
    {result : Except Error Summary}
    (hwords : readArguments words = .ok (.convert arguments))
    (hmode : disk.perform (chooseMode Disk.storage arguments) = (.ok mode, disk))
    (htarget : target? arguments = some target)
    (hrun : disk.perform (run Disk.storage (arguments.settings mode target time)
      arguments.inputs) = (result, disk')) :
    ∃ status messages, disk.perform (execute Disk.storage time words) =
        (⟨status, messages⟩, disk') ∧ (status = 0 ∨ status = 1) ∧
      (status = 0 ↔ ∃ summary, result = .ok summary ∧ summary.failed = []) := by
  have hconvert : disk.perform (convert Disk.storage time arguments) =
      (result.map fun summary => summary.failed.isEmpty, disk') := by
    unfold Arguments.settings at hrun
    simp only [convert, perform_bind, hmode, htarget, hrun]
    cases result <;> rfl
  cases result with
  | error error =>
    obtain ⟨messages, hexecute⟩ := perform_execute_of_error hwords hconvert
    exact ⟨1, messages, hexecute, Or.inr rfl, by simp⟩
  | ok summary =>
    obtain ⟨messages, hexecute⟩ := perform_execute_of_ok hwords hconvert
    refine ⟨_, messages, hexecute, ?_⟩
    cases hfailed : summary.failed <;> simp [hfailed]

/-- What the command comes to. It ends with status 1 and an untouched disk if the client table
cannot be loaded or what is named is no mode. Otherwise it converts the inputs in the mode that is
named, or else in that of the client, or else in the standard one, and the status is 0 just if
nothing failed. If no input is where the output goes, the output then holds the header and a row for
every transaction of every input, in order, and no other file was written. -/
theorem execute_convert (hwords : readArguments words = .ok (.convert arguments)) :
    (Refused disk arguments →
      ∃ messages, disk.perform (execute Disk.storage time words) = (⟨1, messages⟩, disk)) ∧
    (¬Refused disk arguments → ∃ client mode target result disk' status messages,
      Loads disk arguments.clientTable client ∧
      modeFor? arguments.clientMode client = some mode ∧ target? arguments = some target ∧
      disk.perform (run Disk.storage (arguments.settings mode target time) arguments.inputs) =
        (result, disk') ∧
      disk.perform (execute Disk.storage time words) = (⟨status, messages⟩, disk') ∧
      (status = 0 ∨ status = 1) ∧
      (status = 0 ↔ ∃ summary, result = .ok summary ∧ summary.failed = []) ∧
      ((∀ input ∈ arguments.inputs, disk.Apart input
          (outputPath (arguments.settings mode target time) disk arguments.inputs)) →
        ∀ summary, result = .ok summary → summary.failed = [] →
          summary.output = outputPath (arguments.settings mode target time) disk
            arguments.inputs ∧
          (∃ tables, List.Forall₂ (MapsTo disk mode) arguments.inputs tables ∧
            disk'.read summary.output = .ok (tableText tables.flatten)) ∧
          disk.ChangedAt {summary.output} disk')) := by
  have hchoose := perform_chooseMode disk arguments
  constructor
  · intro hrefused
    rcases hchoose with ⟨client, mode, hloads, hmode, -⟩ | ⟨-, error, herror⟩
    · rw [hrefused.modeFor?_eq_none hloads] at hmode
      cases hmode
    · have hconvert : disk.perform (convert Disk.storage time arguments) = (.error error, disk) := by
        simp only [convert, perform_bind, herror]
        rfl
      exact perform_execute_of_error hwords hconvert
  · intro haccepted
    obtain ⟨client, mode, hloads, hmode, hchoose⟩ := hchoose.resolve_right fun h => haccepted h.1
    obtain ⟨target, htarget⟩ := exists_target_of_readArguments hwords
    cases hrun : disk.perform
      (run Disk.storage (arguments.settings mode target time) arguments.inputs) with
    | mk result disk' =>
    obtain ⟨status, messages, hexecute, hstatus, hzero⟩ :=
      perform_execute_of_mode hwords hchoose htarget hrun
    refine ⟨client, mode, target, result, disk', status, messages, hloads, hmode, htarget, hrun,
      hexecute, hstatus, hzero, ?_⟩
    rintro hapart summary rfl hfailed
    obtain ⟨hcomplete, hpath, htable, hchanged⟩ := run_faultless hapart hrun hfailed
    obtain ⟨tables, hmaps, hrows⟩ :=
      exists_rowsAt_eq (arguments.settings mode target time) arguments.inputs hcomplete
    rw [hrows] at htable
    exact ⟨hpath, ⟨tables, hmaps, htable⟩, hchanged⟩

/-- A disk with a report, whose only transaction is cancelled, and a client table. -/
def tradeDisk : Disk where
  nodes := [
    (["a.xml"], .file (reportBytes "<Tx><Cxl/></Tx>")),
    (["client.csv"], .file "Client\nNNIP\n".toUTF8)]

/-- Words that name a report twice, an output and a client table. -/
def tradeWords : List String :=
  ["-i", "a.xml", "a.xml", "--output=out.csv", "--client-config", "client.csv"]

/-- The arguments that these words come to. -/
def tradeArguments : Arguments where
  inputs := ["a.xml", "a.xml"]
  output := some "out.csv"
  clientTable := some "client.csv"

theorem execute_convert_trades :
    (∃ messages disk', tradeDisk.perform (execute Disk.storage mixedSettings.time tradeWords) =
        (⟨0, messages⟩, disk') ∧
      ∃ tables, List.Forall₂ (MapsTo tradeDisk .nnip) ["a.xml", "a.xml"] tables ∧
        disk'.read "out.csv" = .ok (tableText tables.flatten)) ∧
    ∃ messages, tradeDisk.perform (execute Disk.storage mixedSettings.time
      (tradeWords ++ ["--client-mode", "other"])) = (⟨1, messages⟩, tradeDisk) := by
  have hwords : readArguments tradeWords = .ok (.convert tradeArguments) := by decide
  have hother : readArguments (tradeWords ++ ["--client-mode", "other"]) =
      .ok (.convert { tradeArguments with clientMode := some "other" }) := by
    decide
  have hclient : Loads tradeDisk (some "client.csv") (some "NNIP") :=
    .table (by decide) rfl (by decide +kernel)
  have hcomplete : ∃ bytes, tradeDisk.read "a.xml" = .ok bytes ∧ IsComplete bytes :=
    ⟨_, rfl, by decide +kernel⟩
  have hplaces : tradeDisk.place? "a.xml" ≠ tradeDisk.place? "out.csv" := by decide
  constructor
  · obtain ⟨client, mode, target, result, disk', status, messages, hloads, hmode, htarget, hrun,
      hexecute, -, hzero, hresult⟩ := (@execute_convert tradeDisk tradeArguments tradeWords
        mixedSettings.time hwords).2 (by
        rintro (hnone | ⟨name, hnamed, -⟩)
        · exact hnone _ hclient
        · cases hnamed)
    obtain rfl := hloads.unique hclient
    have hnnip : modeFor? tradeArguments.clientMode (some "NNIP") = some .nnip := by decide
    rw [hnnip] at hmode
    cases hmode
    cases htarget
    have hall : ∀ input ∈ tradeArguments.inputs, input = "a.xml" := by decide
    have hapart : ∀ input ∈ tradeArguments.inputs, tradeDisk.Apart input
        (outputPath (tradeArguments.settings .nnip (.file "out.csv") mixedSettings.time) tradeDisk
          tradeArguments.inputs) := by
      intro input hinput
      rw [hall input hinput]
      exact apart_of_place?_ne hplaces
    obtain ⟨summary, disk₁, hrun₁, hfailed⟩ := exists_run_of_isComplete (by decide)
      (fun input hinput => hall input hinput ▸ hcomplete) hapart (by decide)
    rw [hrun] at hrun₁
    cases hrun₁
    obtain ⟨hpath, htables, -⟩ := hresult hapart summary rfl hfailed
    obtain rfl := hzero.2 ⟨summary, rfl, hfailed⟩
    rw [hpath] at htables
    exact ⟨messages, disk', hexecute, htables⟩
  · exact (execute_convert hother).1 (Or.inr ⟨"other", rfl, by decide⟩)

end MifirReport.Command
