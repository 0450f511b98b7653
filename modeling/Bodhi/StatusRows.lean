/-
The rows of `status_vm`: which processes it takes for machines, and what is
left of their names.
-/
import Bodhi.StopPort

namespace Bodhi

/-- The beginning of every machine name: the pattern of `status_vm` without
its final `.*`, which matches whatever follows. -/
def machineFront : Text := vmHostname ++ ['-']

def grepWord : Text := "grep".toList

/-- The lines that do not hold a pattern without operators. -/
def grepInvert (pattern : Text) (lines : List Text) : List Text :=
  lines.filter fun line => decide (¬ pattern <:+: line)

/-- The field `$n` of awk. -/
def awkField (n : Nat) (line : Text) : Text :=
  ((fields isBlank line)[n - 1]?).getD []

/-- The row `"%-10s %-10s\n"` without its newline. -/
def statusRow (first second : Text) : Text :=
  first.rightpad 10 ' ' ++ ' ' :: second.rightpad 10 ' '

def statusHeader : Text :=
  statusRow "PID".toList "VM NAME".toList

/-- The lines that `status_vm` prints. -/
def statusVm (awkAvailable : Bool) (table : ProcessTable) : List Text :=
  let lines := grepInvert grepWord (grep machineFront (psAux table))
  if awkAvailable then
    statusHeader :: lines.map fun line =>
      statusRow (awkField 2 line) (awkField 13 line)
  else lines

/-- How `ps` shows the characters of a command line: printable characters of
ASCII as they are, and never a newline. -/
structure PsDisplay where
  shown : Char → Char
  one_line : ∀ c, shown c ≠ '\n'
  printable : ∀ c, 32 ≤ c.toNat → c.toNat < 127 → shown c = c

/-- A process table in which it is known which processes `start_vm` started,
under a `ps` that may show some characters as others. -/
structure MachineTable extends ProcessTable where
  display : PsDisplay
  machine : Nat → Option QemuCommand
  started : ∀ pid command, machine pid = some command →
    ∃ home selectedVm settings,
      startVm home selectedVm settings = some command
  machine_args : ∀ process ∈ processes, ∀ command,
    machine process.pid = some command →
      process.args = ([' '].intercalate command.argv).map display.shown

/-- The row that a process is owed: its PID and its complete `-name` value if
it is a machine. -/
def MachineTable.rowOf (table : MachineTable) (process : Process) :
    Option Text :=
  (table.machine process.pid).map fun command =>
    statusRow (numeral process.pid) command.name

/-- Below its header `status_vm` prints one row for each machine, in some
order, and nothing else. -/
def ListsMachines (table : MachineTable) : Prop :=
  ∃ rows, statusVm true table.toProcessTable = statusHeader :: rows ∧
    rows.Perm (table.processes.filterMap table.rowOf)

/-- `ps` shows the name as one word that is the name itself, but for spaces
at its end that the column is padded with anyway. -/
def PsDisplay.ShowsWhole (display : PsDisplay) (name : Text) : Prop :=
  ∃ word k, name = word ++ List.replicate k ' ' ∧
    (∀ c ∈ word, isBlank c = false ∧ display.shown c = c) ∧
    (k = 0 ∨ name.length ≤ 10)

/-- The line of a machine stays clear of the word that is filtered out and
shows the whole name; the line of any other process that holds the front of
a machine name holds that word too. -/
def Recognized (table : MachineTable) (process : Process) : Prop :=
  match table.machine process.pid with
  | some command =>
      ¬ grepWord <:+: psLine process ∧ table.display.ShowsWhole command.name
  | none => machineFront <:+: psLine process → grepWord <:+: psLine process

section Names

/-- Every name that `start_vm` gives begins as the pattern does. -/
theorem startVm_name {home selectedVm : Text} {settings : Settings}
    {command : QemuCommand}
    (h : startVm home selectedVm settings = some command) :
    machineFront <+: command.name := by
  have hfront : machineFront <+: vmName selectedVm :=
    ⟨stripExtension selectedVm, by simp [vmName, machineFront]⟩
  rcases startVm_eq_some_iff.1 h with ⟨_, rfl⟩ | ⟨_, rfl⟩
  · exact hfront
  · have hname : (sshCommand home selectedVm settings).name =
        vmName selectedVm ++ (portMark ++ settings.guestSshPort) :=
      List.append_assoc _ _ _
    rw [hname]
    exact hfront.trans (List.prefix_append _ _)

theorem PsDisplay.map_shown (display : PsDisplay) {text : Text}
    (h : text.all (fun c => decide (32 ≤ c.toNat ∧ c.toNat < 127)) = true) :
    text.map display.shown = text := by
  apply map_eq_self_iff.2
  intro c hc
  obtain ⟨hlow, hhigh⟩ := of_decide_eq_true (List.all_eq_true.1 h c hc)
  exact display.printable c hlow hhigh

theorem PsDisplay.shown_space (display : PsDisplay) :
    display.shown ' ' = ' ' :=
  display.printable ' ' (by decide) (by decide)

theorem PsDisplay.map_machineFront (display : PsDisplay) :
    machineFront.map display.shown = machineFront :=
  display.map_shown (by decide)

/-- The first word of a name as `ps` shows it. -/
def PsDisplay.firstWord (display : PsDisplay) (name : Text) : Text :=
  (name.map display.shown).takeWhile fun c => !isBlank c

theorem PsDisplay.firstWord_solid (display : PsDisplay) (name : Text) :
    ∀ c ∈ display.firstWord name, isBlank c = false := by
  intro c hc
  simpa using List.mem_takeWhile_imp hc

/-- A word that is shown as it is comes back from in front of spaces. -/
theorem PsDisplay.firstWord_append_spaces (display : PsDisplay) {word : Text}
    (hword : ∀ c ∈ word, isBlank c = false ∧ display.shown c = c) (k : Nat) :
    display.firstWord (word ++ List.replicate k ' ') = word := by
  have hshown : word.map display.shown = word :=
    map_eq_self_iff.2 fun c hc => (hword c hc).2
  have hsolid : ∀ c ∈ word, (!isBlank c) = true := by
    intro c hc
    simp [(hword c hc).1]
  rw [firstWord, List.map_append, hshown, List.map_replicate,
    display.shown_space, List.takeWhile_append_of_pos hsolid]
  cases k with
  | zero => simp
  | succ k => simp [List.replicate_succ, isBlank]

/-- A name that begins with what is shown of it shows that part as it is. -/
theorem PsDisplay.shown_of_firstWord (display : PsDisplay) {name rest : Text}
    (h : name = display.firstWord name ++ rest) :
    ∀ c ∈ display.firstWord name, display.shown c = c := by
  have hfirst : display.firstWord name <+: name.map display.shown :=
    List.takeWhile_prefix _
  have hlength : (display.firstWord name).length ≤
      ((display.firstWord name).map display.shown).length := by
    simp
  have hown : (display.firstWord name).map display.shown <+:
      name.map display.shown := by
    conv_rhs => rw [h, List.map_append]
    exact List.prefix_append _ _
  have hprefix := List.prefix_of_prefix_length_le hfirst hown hlength
  have hsame := hprefix.eq_of_length (by simp)
  exact map_eq_self_iff.1 hsame.symm

/-- The first word of a shown name, padded, is the padded name exactly if the
name is shown whole. -/
theorem PsDisplay.showsWhole_iff (display : PsDisplay) (name : Text) :
    (display.firstWord name).rightpad 10 ' ' = name.rightpad 10 ' ' ↔
      display.ShowsWhole name := by
  have hno : ' ' ∉ display.firstWord name := by
    intro hmem
    exact absurd (display.firstWord_solid name ' ' hmem) (by decide)
  rw [rightpad_eq_rightpad_iff hno]
  constructor
  · rintro ⟨k, hname, hk⟩
    refine ⟨display.firstWord name, k, hname, ?_, hk⟩
    intro c hc
    exact ⟨display.firstWord_solid name c hc,
      display.shown_of_firstWord hname c hc⟩
  · rintro ⟨word, k, hname, hword, hk⟩
    have hfirst : display.firstWord name = word := by
      rw [hname, display.firstWord_append_spaces hword]
    exact ⟨k, by rw [hfirst, ← hname], hk⟩

end Names

section Columns

/-- The columns before the command line are words, so that its own fields
come from the eleventh on. -/
theorem fields_psLine (process : Process) :
    fields isBlank (psLine process) =
      process.user.text :: numeral process.pid ::
        (process.stats.map Word.text ++ fields isBlank process.args) := by
  have hword (word : Word) : fields isBlank word.text = [word.text] :=
    fields_eq_singleton isBlank word.nonempty word.solid
  have hpid : fields isBlank (numeral process.pid) = [numeral process.pid] :=
    hword (numeralWord process.pid)
  have hstats : (process.stats.map Word.text).flatMap (fields isBlank) =
      process.stats.map Word.text := by
    rw [List.flatMap_map, List.map_eq_flatMap]
    exact List.flatMap_congr fun word _ => hword word
  rw [psLine, fields_intercalate isBlank (by decide), List.flatMap_cons,
    List.flatMap_cons, List.flatMap_append, hword, hpid, hstats]
  simp

theorem awkField_pid (process : Process) :
    awkField 2 (psLine process) = numeral process.pid := by
  rw [awkField, fields_psLine]
  rfl

def qemuWord : Word := .ofText "qemu-system-x86_64".toList (by decide)

def nameWord : Word := .ofText "-name".toList (by decide)

theorem QemuCommand.argv_front (command : QemuCommand) :
    ∃ rest, command.argv = qemuWord.text :: nameWord.text ::
      command.name :: "-drive".toList :: rest :=
  ⟨_, rfl⟩

section Machine

variable {table : MachineTable} {process : Process} {command : QemuCommand}
  (hmem : process ∈ table.processes)
  (hmachine : table.machine process.pid = some command)

include hmem hmachine

/-- The third word of a machine's command line is the first word of its
name. -/
theorem fields_args :
    ∃ more, fields isBlank process.args = qemuWord.text :: nameWord.text ::
      table.display.firstWord command.name :: more := by
  obtain ⟨rest, hargv⟩ := command.argv_front
  obtain ⟨home, selectedVm, settings, hstart⟩ := table.started _ _ hmachine
  obtain ⟨image, hname⟩ := startVm_name hstart
  have hqemu : qemuWord.text.map table.display.shown = qemuWord.text :=
    table.display.map_shown (by decide)
  have hflag : nameWord.text.map table.display.shown = nameWord.text :=
    table.display.map_shown (by decide)
  have hargs : process.args = qemuWord.text ++ ' ' ::
      (nameWord.text ++ ' ' :: (command.name.map table.display.shown ++ ' ' ::
        ([' '].intercalate ("-drive".toList :: rest)).map
          table.display.shown)) := by
    rw [table.machine_args process hmem command hmachine, hargv]
    simp only [List.intercalate_cons_cons, List.map_append, List.map_cons,
      hqemu, hflag, table.display.shown_space, List.append_assoc,
      List.singleton_append]
  have hblank : isBlank ' ' = true := by decide
  have hfirst : (fields isBlank (command.name.map table.display.shown)).head? =
      some (table.display.firstWord command.name) := by
    rw [PsDisplay.firstWord, ← hname, List.map_append,
      table.display.map_machineFront]
    exact fields_head isBlank _ (by decide)
  obtain ⟨more, hmore⟩ := List.head?_eq_some_iff.1 hfirst
  refine ⟨more ++ fields isBlank (([' '].intercalate
    ("-drive".toList :: rest)).map table.display.shown), ?_⟩
  rw [hargs, fields_word_cons isBlank _ qemuWord.nonempty qemuWord.solid hblank,
    fields_word_cons isBlank _ nameWord.nonempty nameWord.solid hblank,
    fields_append_sep isBlank _ _ hblank, hmore, List.cons_append]

theorem awkField_name :
    awkField 13 (psLine process) = table.display.firstWord command.name := by
  obtain ⟨more, hargs⟩ := fields_args hmem hmachine
  rw [awkField, fields_psLine, hargs]
  simp [List.getElem?_append_right, process.stats_length]

/-- The line of a machine holds the pattern. -/
theorem machineFront_infix_psLine : machineFront <:+: psLine process := by
  obtain ⟨home, selectedVm, settings, hstart⟩ := table.started _ _ hmachine
  have hname : command.name ∈ command.argv := by
    simp [QemuCommand.argv]
  have hline : machineFront <:+: [' '].intercalate command.argv :=
    (startVm_name hstart).isInfix.trans (mem_intercalate_isInfix [' '] hname)
  have hargs : machineFront <:+: process.args := by
    rw [table.machine_args process hmem command hmachine,
      ← table.display.map_machineFront]
    exact hline.map table.display.shown
  exact hargs.trans (args_suffix_psLine process).isInfix

end Machine

end Columns

section Results

/-- The row that `status_vm` prints for a process, if it prints one. -/
def printedRow (process : Process) : Option Text :=
  let line := psLine process
  if machineFront <:+: line ∧ ¬ grepWord <:+: line then
    some (statusRow (awkField 2 line) (awkField 13 line))
  else none

theorem statusVm_awk (table : ProcessTable) :
    statusVm true table =
      statusHeader :: table.processes.filterMap printedRow := by
  have hheader : ¬ machineFront <:+: psHeader := by decide +kernel
  have hrows (processes : List Process) :
      ((grepInvert grepWord (grep machineFront (processes.map psLine))).map
        fun line => statusRow (awkField 2 line) (awkField 13 line)) =
          processes.filterMap printedRow := by
    induction processes with
    | nil => rfl
    | cons process rest ih =>
        simp only [grep, grepInvert] at ih ⊢
        by_cases hfront : machineFront <:+: psLine process
        · by_cases hword : grepWord <:+: psLine process
          · simpa [printedRow, hfront, hword] using ih
          · simpa [printedRow, hfront, hword] using ih
        · simpa [printedRow, hfront] using ih
  have hlines : grep machineFront (psAux table) =
      grep machineFront (table.processes.map psLine) := by
    simp [grep, psAux, hheader]
  rw [statusVm, hlines, ← hrows, if_pos rfl]

/-- The PID of a row is the text before its first space. -/
theorem statusRow_pid (pid : Nat) (second : Text) :
    (statusRow (numeral pid) second).takeWhile (· ≠ ' ') = numeral pid := by
  have hpid : ' ' ∉ numeral pid := not_mem_numeral (by decide)
  rw [statusRow, List.rightpad, List.append_assoc]
  refine takeWhile_append_space hpid (Or.inr ?_)
  cases 10 - (numeral pid).length with
  | zero => rfl
  | succ k => rfl

theorem statusRow_inj {pid first second : Text} :
    statusRow pid first = statusRow pid second ↔
      first.rightpad 10 ' ' = second.rightpad 10 ' ' := by
  simp [statusRow]

/-- The row that is printed for a process is the one it is owed exactly if the
process can be recognized by its line. -/
theorem printedRow_eq_rowOf_iff {table : MachineTable} {process : Process}
    (hmem : process ∈ table.processes) :
    printedRow process = table.rowOf process ↔ Recognized table process := by
  cases hmachine : table.machine process.pid with
  | none =>
      simp only [MachineTable.rowOf, Recognized, hmachine, Option.map_none,
        printedRow, ite_eq_right_iff, reduceCtorEq, imp_false, not_and,
        not_not]
  | some command =>
      have hfront := machineFront_infix_psLine hmem hmachine
      simp only [MachineTable.rowOf, Recognized, hmachine, Option.map_some,
        printedRow, hfront, true_and, awkField_pid,
        awkField_name hmem hmachine, Option.ite_none_right_eq_some,
        Option.some.injEq, statusRow_inj, PsDisplay.showsWhole_iff]

theorem printedRow_pid {process : Process} {row : Text}
    (h : printedRow process = some row) :
    row.takeWhile (· ≠ ' ') = numeral process.pid := by
  rw [printedRow, Option.ite_none_right_eq_some, Option.some.injEq] at h
  rw [← h.2, awkField_pid, statusRow_pid]

theorem MachineTable.rowOf_pid {table : MachineTable} {process : Process}
    {row : Text} (h : table.rowOf process = some row) :
    row.takeWhile (· ≠ ' ') = numeral process.pid := by
  obtain ⟨command, _, rfl⟩ := Option.map_eq_some_iff.1 h
  exact statusRow_pid process.pid command.name

theorem ProcessTable.numerals_nodup (table : ProcessTable) :
    (table.processes.map fun process => numeral process.pid).Nodup := by
  have hinj : Function.Injective numeral :=
    Function.LeftInverse.injective numeralValue_numeral
  have hnodup := table.pids_nodup.map hinj
  rwa [List.map_map] at hnodup

end Results

/-- Below its header `status_vm` prints exactly one row for each machine,
with its PID and its complete name, if and only if every process of the table
can be recognized by its line. -/
theorem listsMachines_iff (table : MachineTable) :
    ListsMachines table ↔
      ∀ process ∈ table.processes, Recognized table process := by
  have hrows : ListsMachines table ↔
      (table.processes.filterMap printedRow).Perm
        (table.processes.filterMap table.rowOf) := by
    rw [ListsMachines, statusVm_awk]
    simp
  rw [hrows, filterMap_perm_iff table.numerals_nodup
    (fun process _ row h => printedRow_pid h)
    (fun process _ row h => MachineTable.rowOf_pid h)]
  exact forall₂_congr fun process hmem => printedRow_eq_rowOf_iff hmem

example : statusVm true editorTable.toProcessTable =
    [statusHeader, statusRow "77".toList "qvm-arch----9001".toList] := by
  decide +kernel

/-- A display that shows a newline as a question mark. -/
def questionMarks : PsDisplay where
  shown c := if c = '\n' then '?' else c
  one_line c := by
    by_cases hc : c = '\n' <;> simp [hc]
  printable c hlow _ := by
    have hc : c ≠ '\n' := by
      rintro rfl
      exact absurd hlow (by decide)
    simp [hc]

theorem questionMarks_map {text : Text} (h : '\n' ∉ text) :
    text.map questionMarks.shown = text := by
  apply map_eq_self_iff.2
  intro c hc
  have hne : c ≠ '\n' := fun heq => h (heq ▸ hc)
  simp [questionMarks, hne]

/-- The machines of a table in which the calls of `start_vm` are known. -/
def VmTable.machines (table : VmTable) : MachineTable where
  toProcessTable := table.toProcessTable
  display := questionMarks
  machine pid := (table.launch pid).map Launch.command
  started := by
    intro pid command h
    obtain ⟨call, _, rfl⟩ := Option.map_eq_some_iff.1 h
    exact ⟨_, _, _, call.started⟩
  machine_args := by
    intro process hmem command h
    obtain ⟨call, hcall, rfl⟩ := Option.map_eq_some_iff.1 h
    have hargs : process.args = call.commandLine :=
      table.launch_args process hmem call hcall
    have hline : '\n' ∉ call.commandLine := hargs ▸ process.one_line
    rw [hargs]
    exact (questionMarks_map hline).symm

def grepImage : Text := "grep-lab.qcow2".toList

/-- A machine that `start_vm` launches from that image with the default
settings. -/
def grepLaunch : Launch where
  home := "/root".toList
  selectedVm := grepImage
  settings := setDefaulFlags bareEnvironment
  command := sshCommand "/root".toList grepImage
    (setDefaulFlags bareEnvironment)
  started := startVm_default "/root".toList grepImage
  port_nonempty := defaultPort_ne_nil

/-- That machine with PID 77. -/
def grepTable : VmTable where
  processes :=
    [rootProcess 77 1 "qemu-system-x86".toList grepLaunch.commandLine
      (by decide +kernel)]
  pids_nodup := by decide
  launch pid := if pid = 77 then some grepLaunch else none
  launch_args := by
    intro process hmem call hcall
    obtain rfl := List.mem_singleton.1 hmem
    have hsame : some grepLaunch = some call := hcall
    rw [← Option.some.inj hsame, rootProcess]

/-- That machine is missing: its line holds the word that is filtered out. -/
theorem not_listsMachines : ¬ ListsMachines grepTable.machines := by
  rintro ⟨rows, hprinted, hperm⟩
  have hlength := congrArg List.length hprinted
  rw [List.length_cons, hperm.length_eq] at hlength
  exact absurd hlength (by decide +kernel)

end Bodhi
