/-
The SSH port of a machine from `start_vm`, which writes it on the command
line, to `stop_vm`, which looks for it in the process table.
-/
import Bodhi.ProcessTable
import Bodhi.StartCommand

namespace Bodhi

/-- `sed -n 's/.*----\s*\([^ ]*\).*/\1/p'` on one line. -/
def sedPort (line : Text) : Option Text :=
  (afterLast portMark line).map fun tail =>
    (tail.dropWhile isSpace).takeWhile (· ≠ ' ')

/-- The variable `guest_ssh_port` of `stop_vm`, for the PID typed. -/
def guestSshPort (table : ProcessTable) (pid : Text) : Text :=
  commandSubst (unlines ((grep pid (psAux table)).filterMap sedPort))

/-- A call of `start_vm` that started a machine. -/
structure Launch where
  home : Text
  selectedVm : Text
  settings : Settings
  command : QemuCommand
  started : startVm home selectedVm settings = some command
  port_nonempty : settings.guestSshPort ≠ []

namespace Launch

def commandLine (launch : Launch) : Text :=
  [' '].intercalate launch.command.argv

/-- The SSH port of a machine in ssh mode. -/
def sshPort (launch : Launch) : Option Text :=
  if launch.settings.ifMode = IfMode.ssh.token then
    some launch.settings.guestSshPort
  else none

end Launch

/-- A process table in which it is known which processes `start_vm` launched
and with what. -/
structure VmTable extends ProcessTable where
  launch : Nat → Option Launch
  launch_args : ∀ process ∈ processes, ∀ call, launch process.pid = some call →
    process.args = call.commandLine

/-- The SSH port of a process, if it is a machine in ssh mode. -/
def VmTable.portOf (table : VmTable) (process : Process) : Option Text :=
  (table.launch process.pid).bind Launch.sshPort

/-- What `stop_vm` owes to the PID typed: the port of that machine, and
nothing where that PID is no machine in ssh mode. -/
def CarriesPort (table : VmTable) (pid : Nat) : Prop :=
  (∀ process ∈ table.processes, process.pid = pid →
    ∀ port, table.portOf process = some port →
      guestSshPort table.toProcessTable (numeral pid) = port) ∧
  ((∀ process ∈ table.processes, process.pid = pid →
      table.portOf process = none) →
    guestSshPort table.toProcessTable (numeral pid) = [])

/-- The last mark of the line stands in front of the port: blanks may come
before it, and a space or the end of the line after it. -/
def MarksPort (line port : Text) : Prop :=
  ∃ blanks rest, FollowsLast portMark line (blanks ++ port ++ rest) ∧
    (∀ c ∈ blanks, isSpace c = true) ∧ ' ' ∉ port ∧
    (∃ c, port.head? = some c ∧ isSpace c = false) ∧
    (rest = [] ∨ rest.head? = some ' ')

/-- The line has no mark, or only blanks after its last one. -/
def Silent (line : Text) : Prop :=
  ∀ tail, FollowsLast portMark line tail → ∀ c ∈ tail, isSpace c = true

/-- No line but that of the typed PID gets in the way: a line that holds its
digits has no mark in front of the machine's own line and is silent after it,
and the last mark of the own line is the one before the port.  Where the PID
is no machine in ssh mode every line that holds its digits is silent. -/
def PortUnshared (table : VmTable) (pid : Nat) : Prop :=
  (∀ process ∈ table.processes, process.pid = pid →
    ∀ port, table.portOf process = some port →
      MarksPort (psLine process) port ∧
      ∀ before after, table.processes = before ++ process :: after →
        (∀ other ∈ before, numeral pid <:+: psLine other →
          ¬ portMark <:+: psLine other) ∧
        ∀ other ∈ after, numeral pid <:+: psLine other →
          Silent (psLine other)) ∧
  ((∀ process ∈ table.processes, process.pid = pid →
      table.portOf process = none) →
    ∀ other ∈ table.processes, numeral pid <:+: psLine other →
      Silent (psLine other))

section Sed

theorem sedPort_eq_none_iff (line : Text) :
    sedPort line = none ↔ ¬ portMark <:+: line := by
  rw [sedPort, Option.map_eq_none_iff, afterLast_eq_none_iff]

theorem takeWhile_append_space {port rest : Text} (hport : ' ' ∉ port)
    (hrest : rest = [] ∨ rest.head? = some ' ') :
    (port ++ rest).takeWhile (· ≠ ' ') = port := by
  have hall : ∀ c ∈ port, decide (c ≠ ' ') = true := by
    intro c hc
    rw [decide_eq_true_iff]
    rintro rfl
    exact hport hc
  rw [List.takeWhile_append_of_pos hall]
  cases rest with
  | nil => simp
  | cons c rest =>
      have hc : c = ' ' := by simpa using hrest
      simp [hc]

/-- The decoder on a line whose last mark is followed by a port. -/
theorem sedPort_of_marksPort {line port : Text} (h : MarksPort line port) :
    sedPort line = some port := by
  obtain ⟨blanks, rest, hlast, hblanks, hspace, ⟨c, hhead, hc⟩, hrest⟩ := h
  have hdrop : (blanks ++ port ++ rest).dropWhile isSpace = port ++ rest := by
    rw [List.append_assoc, List.dropWhile_append_of_pos hblanks]
    cases port with
    | nil => simp at hhead
    | cons d port =>
        obtain rfl : d = c := by simpa using hhead
        simp [hc]
  rw [sedPort, (afterLast_eq_some_iff _ _ _).2 hlast, Option.map_some, hdrop,
    takeWhile_append_space hspace hrest]

/-- What the decoder prints stands behind the last mark. -/
theorem marksPort_of_sedPort {line port : Text} (h : sedPort line = some port)
    (hne : port ≠ []) : MarksPort line port := by
  obtain ⟨tail, hafter, rfl⟩ := Option.map_eq_some_iff.1 h
  have hlast := (afterLast_eq_some_iff _ _ _).1 hafter
  have hbody : tail = tail.takeWhile isSpace ++ tail.dropWhile isSpace :=
    List.takeWhile_append_dropWhile.symm
  generalize hcut : tail.dropWhile isSpace = body at *
  have hsplit : body = body.takeWhile (· ≠ ' ') ++ body.dropWhile (· ≠ ' ') :=
    List.takeWhile_append_dropWhile.symm
  have hrest : body.dropWhile (· ≠ ' ') = [] ∨
      (body.dropWhile (· ≠ ' ')).head? = some ' ' := by
    cases hend : body.dropWhile (· ≠ ' ') with
    | nil => exact Or.inl rfl
    | cons c rest => exact Or.inr (by simpa using dropWhile_eq_cons hend)
  refine ⟨tail.takeWhile isSpace, body.dropWhile (· ≠ ' '), ?_, ?_, ?_, ?_,
    hrest⟩
  · rwa [List.append_assoc, ← hsplit, ← hbody]
  · exact fun c hc => List.mem_takeWhile_imp hc
  · intro hmem
    simpa using List.mem_takeWhile_imp hmem
  · cases body with
    | nil => exact absurd rfl hne
    | cons c rest =>
        have hspace := dropWhile_eq_cons hcut
        have hc : c ≠ ' ' := by
          rintro rfl
          exact absurd hspace (by decide)
        exact ⟨c, by simp [hc], hspace⟩

theorem marksPort_iff (line port : Text) :
    MarksPort line port ↔ sedPort line = some port ∧ port ≠ [] := by
  constructor
  · intro h
    obtain ⟨_, _, _, _, _, ⟨c, hhead, _⟩, _⟩ := id h
    refine ⟨sedPort_of_marksPort h, ?_⟩
    rintro rfl
    cases hhead
  · exact fun h => marksPort_of_sedPort h.1 h.2

/-- A line is silent if the decoder prints at most an empty line for it. -/
theorem silent_iff (line : Text) :
    Silent line ↔ ∀ port, sedPort line = some port → port = [] := by
  constructor
  · intro h port hport
    by_contra hne
    obtain ⟨blanks, rest, hlast, _, _, ⟨c, hhead, hc⟩, _⟩ :=
      marksPort_of_sedPort hport hne
    have hmem : c ∈ blanks ++ port ++ rest := by
      simp [List.mem_of_mem_head? hhead]
    rw [h _ hlast c hmem] at hc
    cases hc
  · intro h tail hlast c hc
    have hport := h _ (by rw [sedPort, (afterLast_eq_some_iff _ _ _).2 hlast,
      Option.map_some])
    by_contra hspace
    cases hcut : tail.dropWhile isSpace with
    | nil => exact hspace (List.dropWhile_eq_nil_iff.1 hcut c hc)
    | cons d rest =>
        have hd : d = ' ' := by
          by_contra hne
          rw [hcut] at hport
          simp [hne] at hport
        have hfalse := dropWhile_eq_cons hcut
        rw [hd] at hfalse
        exact absurd hfalse (by decide)

theorem newline_not_mem_sedPort {line port : Text}
    (h : sedPort line = some port) (hline : '\n' ∉ line) : '\n' ∉ port := by
  obtain ⟨tail, hafter, rfl⟩ := Option.map_eq_some_iff.1 h
  obtain ⟨before, rfl, _⟩ := (afterLast_eq_some_iff _ _ _).1 hafter
  intro hmem
  have htail : '\n' ∈ tail :=
    (List.dropWhile_sublist _).mem ((List.takeWhile_sublist _).mem hmem)
  exact hline (List.mem_append_right _ htail)

end Sed

section Lines

theorem newline_not_mem_psLine (process : Process) :
    '\n' ∉ psLine process := by
  intro hmem
  have hword : ∀ word : Word, '\n' ∉ word.text := fun word h =>
    absurd (word.solid _ h) (by decide)
  have hparts : ∀ part ∈ process.user.text :: numeral process.pid ::
      (process.stats.map Word.text ++ [process.args]), '\n' ∉ part := by
    intro part hpart
    simp only [List.mem_cons, List.mem_append, List.mem_map,
      List.not_mem_nil, or_false] at hpart
    rcases hpart with rfl | rfl | ⟨word, _, rfl⟩ | rfl
    · exact hword _
    · exact not_mem_numeral (by decide)
    · exact hword _
    · exact process.one_line
  rcases mem_of_mem_intercalate hmem with h | ⟨part, hpart, h⟩
  · simp at h
  · exact hparts part hpart h

theorem numeral_infix_psLine (process : Process) :
    numeral process.pid <:+: psLine process :=
  mem_intercalate_isInfix _ (by simp)

theorem args_suffix_psLine (process : Process) :
    process.args <:+ psLine process :=
  suffix_intercalate_concat [' '] (process.user.text :: numeral process.pid ::
    process.stats.map Word.text) process.args

/-- A line with a mark that goes on to another character is not silent. -/
theorem not_silent_of_getLast {line : Text} {c : Char}
    (hmark : portMark <:+: line) (hlast : line.getLast? = some c)
    (hspace : isSpace c = false) (hdash : c ≠ '-') : ¬ Silent line := by
  intro hsilent
  cases hscan : afterLast portMark line with
  | none => exact (afterLast_eq_none_iff _ _).1 hscan hmark
  | some tail =>
      have hfollows := afterLast_followsLast hscan
      obtain ⟨before, rfl, _⟩ := id hfollows
      rw [List.getLast?_append] at hlast
      cases hend : tail.getLast? with
      | none =>
          have hmarkEnd : (before ++ portMark).getLast? = some '-' := by
            rw [List.getLast?_append]
            rfl
          rw [hend, Option.none_or, hmarkEnd, Option.some.injEq] at hlast
          exact hdash hlast.symm
      | some d =>
          rw [hend, Option.some_or, Option.some.injEq] at hlast
          have hd := hsilent tail hfollows d (List.mem_of_getLast? hend)
          rw [hlast, hspace] at hd
          cases hd

/-- The machines with a port are those of the ssh branch. -/
theorem Launch.command_of_sshPort {launch : Launch} {port : Text}
    (h : launch.sshPort = some port) :
    launch.command = sshCommand launch.home launch.selectedVm launch.settings ∧
      launch.settings.guestSshPort = port := by
  have hmodes : IfMode.ssh.token ≠ IfMode.graphical.token := by decide
  rw [sshPort, Option.ite_none_right_eq_some, Option.some.injEq] at h
  rcases startVm_eq_some_iff.1 launch.started with ⟨hmode, _⟩ | ⟨_, hcommand⟩
  · exact absurd (h.1.symm.trans hmode) hmodes
  · exact ⟨hcommand.symm, h.2⟩

def enableKvm : Text := "-enable-kvm".toList

theorem sshCommand_argv_getLast (home selectedVm : Text) (s : Settings) :
    (sshCommand home selectedVm s).argv.getLast? = some enableKvm := rfl

/-- The own line of a machine in ssh mode holds the mark and goes on after
it. -/
theorem psLine_not_silent {table : VmTable} {process : Process} {port : Text}
    (hmem : process ∈ table.processes)
    (hport : table.portOf process = some port) :
    portMark <:+: psLine process ∧ ¬ Silent (psLine process) := by
  obtain ⟨call, hcall, hsome⟩ := Option.bind_eq_some_iff.1 hport
  have hargs := table.launch_args process hmem call hcall
  have hcommand := (Launch.command_of_sshPort hsome).1
  have hname : call.command.name ∈ call.command.argv := by
    simp [QemuCommand.argv]
  have hmarkName : portMark <:+: call.command.name := by
    rw [hcommand]
    exact ⟨vmName call.selectedVm, call.settings.guestSshPort, rfl⟩
  have hmark : portMark <:+: psLine process := by
    refine hmarkName.trans ((mem_intercalate_isInfix [' '] hname).trans ?_)
    rw [← Launch.commandLine, ← hargs]
    exact (args_suffix_psLine process).isInfix
  obtain ⟨front, hfront⟩ := List.getLast?_eq_some_iff.1
    (sshCommand_argv_getLast call.home call.selectedVm call.settings)
  have hsuffix : enableKvm <:+ psLine process := by
    refine List.IsSuffix.trans ?_ (args_suffix_psLine process)
    rw [hargs, Launch.commandLine, hcommand, hfront]
    exact suffix_intercalate_concat [' '] front enableKvm
  have hlast : (psLine process).getLast? = some 'm' := by
    obtain ⟨before, hbefore⟩ := hsuffix
    rw [← hbefore, List.getLast?_append]
    rfl
  exact ⟨hmark, not_silent_of_getLast hmark hlast (by decide) (by decide)⟩

end Lines

section Results

/-- What the pipeline of `stop_vm` prints for the lines of some processes. -/
def portLines (pid : Nat) (processes : List Process) : List Text :=
  (grep (numeral pid) (processes.map psLine)).filterMap sedPort

theorem portLines_append (pid : Nat) (first last : List Process) :
    portLines pid (first ++ last) =
      portLines pid first ++ portLines pid last := by
  simp [portLines, grep]

theorem mem_portLines_iff {pid : Nat} {processes : List Process}
    {port : Text} :
    port ∈ portLines pid processes ↔
      ∃ other ∈ processes, numeral pid <:+: psLine other ∧
        sedPort (psLine other) = some port := by
  simp [portLines, grep, and_assoc]

theorem portLines_eq_nil_iff (pid : Nat) (processes : List Process) :
    portLines pid processes = [] ↔
      ∀ other ∈ processes, numeral pid <:+: psLine other →
        ¬ portMark <:+: psLine other := by
  simp only [portLines, grep, List.filterMap_eq_nil_iff, List.mem_filter,
    List.mem_map, decide_eq_true_eq, sedPort_eq_none_iff]
  constructor
  · exact fun h other hother hpid => h _ ⟨⟨other, hother, rfl⟩, hpid⟩
  · rintro h _ ⟨⟨other, hother, rfl⟩, hpid⟩
    exact h other hother hpid

theorem portLines_silent_iff (pid : Nat) (processes : List Process) :
    (∀ port ∈ portLines pid processes, port = []) ↔
      ∀ other ∈ processes, numeral pid <:+: psLine other →
        Silent (psLine other) := by
  simp only [mem_portLines_iff, silent_iff]
  constructor
  · exact fun h other hother hpid port hport =>
      h port ⟨other, hother, hpid, hport⟩
  · rintro h port ⟨other, hother, hpid, hport⟩
    exact h other hother hpid port hport

theorem newline_not_mem_portLines (pid : Nat) (processes : List Process) :
    ∀ port ∈ portLines pid processes, '\n' ∉ port := by
  intro port hport
  obtain ⟨other, _, _, hsed⟩ := mem_portLines_iff.1 hport
  exact newline_not_mem_sedPort hsed (newline_not_mem_psLine other)

/-- The header has no digits, so no PID is found in it. -/
theorem numeral_not_infix_psHeader (pid : Nat) :
    ¬ numeral pid <:+: psHeader := by
  intro h
  obtain ⟨c, rest, hcons⟩ := List.exists_cons_of_ne_nil (numeral_ne_nil pid)
  have hc : c ∈ numeral pid := hcons ▸ List.mem_cons_self
  have hheader : psHeader.any Char.isDigit = false := by decide
  exact List.any_eq_false.1 hheader c (h.subset hc) (isDigit_of_mem_numeral hc)

theorem guestSshPort_eq (table : ProcessTable) (pid : Nat) :
    guestSshPort table (numeral pid) =
      commandSubst (unlines (portLines pid table.processes)) := by
  have hheader : grep (numeral pid) (psAux table) =
      grep (numeral pid) (table.processes.map psLine) := by
    simp [grep, psAux, numeral_not_infix_psHeader]
  rw [guestSshPort, hheader, portLines]

theorem guestSshPort_eq_nil_iff (table : ProcessTable) (pid : Nat) :
    guestSshPort table (numeral pid) = [] ↔
      ∀ other ∈ table.processes, numeral pid <:+: psLine other →
        Silent (psLine other) := by
  rw [guestSshPort_eq, commandSubst_unlines_eq_nil_iff
    (newline_not_mem_portLines _ _), portLines_silent_iff]

/-- The port of a machine in ssh mode comes out alone exactly if its own line
marks it and the lines around it stay out of the way. -/
theorem guestSshPort_eq_port_iff {table : VmTable} {process : Process}
    {port : Text} {before after : List Process}
    (hsplit : table.processes = before ++ process :: after)
    (hport : table.portOf process = some port) :
    guestSshPort table.toProcessTable (numeral process.pid) = port ↔
      MarksPort (psLine process) port ∧
        (∀ other ∈ before, numeral process.pid <:+: psLine other →
          ¬ portMark <:+: psLine other) ∧
        ∀ other ∈ after, numeral process.pid <:+: psLine other →
          Silent (psLine other) := by
  have hmem : process ∈ table.processes := by simp [hsplit]
  obtain ⟨hmark, hloud⟩ := psLine_not_silent hmem hport
  rw [silent_iff] at hloud
  push Not at hloud
  obtain ⟨own, hown, hne⟩ := hloud
  have hlines : portLines process.pid table.processes =
      portLines process.pid before ++
        own :: portLines process.pid after := by
    have hsingle : portLines process.pid [process] = [own] := by
      simp [portLines, grep, numeral_infix_psLine, hown]
    rw [hsplit, ← List.singleton_append, portLines_append, portLines_append,
      hsingle, List.singleton_append]
  have hword : '\n' ∉ port := by
    obtain ⟨call, hcall, hsome⟩ := Option.bind_eq_some_iff.1 hport
    have hargs := table.launch_args process hmem call hcall
    obtain ⟨hcommand, hsettings⟩ := Launch.command_of_sshPort hsome
    have hname : call.command.name ∈ call.command.argv := by
      simp [QemuCommand.argv]
    have hpart : port <:+: process.args := by
      rw [hargs]
      refine List.IsInfix.trans ?_ (mem_intercalate_isInfix [' '] hname)
      rw [hcommand, ← hsettings]
      exact (List.suffix_append _ _).isInfix
    exact fun h => process.one_line (hpart.subset h)
  have hall := newline_not_mem_portLines process.pid table.processes
  rw [hlines] at hall
  rw [guestSshPort_eq, hlines, commandSubst_unlines_eq_iff hne hword hall,
    portLines_eq_nil_iff, portLines_silent_iff, marksPort_iff, hown,
    Option.some.injEq]
  constructor
  · rintro ⟨hbefore, rfl, hafter⟩
    exact ⟨⟨rfl, hne⟩, hbefore, hafter⟩
  · rintro ⟨⟨rfl, _⟩, hbefore, hafter⟩
    exact ⟨hbefore, rfl, hafter⟩

end Results

/-- `stop_vm` finds the port of the machine whose PID is typed, and nothing
for any other PID, exactly when no other line of the process table gets in
the way. -/
theorem guestSshPort_carried_iff (table : VmTable) (pid : Nat) :
    CarriesPort table pid ↔ PortUnshared table pid := by
  apply and_congr
  · apply forall₅_congr
    intro process hmem hpid port hport
    subst hpid
    constructor
    · intro h
      obtain ⟨before, after, hsplit⟩ := List.append_of_mem hmem
      refine ⟨((guestSshPort_eq_port_iff hsplit hport).1 h).1, ?_⟩
      exact fun before' after' hsplit' =>
        ((guestSshPort_eq_port_iff hsplit' hport).1 h).2
    · rintro ⟨hmarks, hothers⟩
      obtain ⟨before, after, hsplit⟩ := List.append_of_mem hmem
      exact (guestSshPort_eq_port_iff hsplit hport).2
        ⟨hmarks, hothers before after hsplit⟩
  · exact forall_congr' fun _ =>
      guestSshPort_eq_nil_iff table.toProcessTable pid

/-- With the default settings a machine starts in ssh mode. -/
theorem startVm_default (home image : Text) :
    startVm home image (setDefaulFlags bareEnvironment) =
      some (sshCommand home image (setDefaulFlags bareEnvironment)) := by
  have hmode : (setDefaulFlags bareEnvironment).ifMode = IfMode.ssh.token := by
    decide
  exact startVm_eq_some_iff.2 (Or.inr ⟨hmode, rfl⟩)

theorem defaultPort_ne_nil :
    (setDefaulFlags bareEnvironment).guestSshPort ≠ [] := by
  decide

/-- A machine that `start_vm` launches with the default settings in ssh
mode. -/
def defaultLaunch : Launch where
  home := "/root".toList
  selectedVm := "arch.qcow2".toList
  settings := setDefaulFlags bareEnvironment
  command := sshCommand "/root".toList "arch.qcow2".toList
    (setDefaulFlags bareEnvironment)
  started := startVm_default "/root".toList "arch.qcow2".toList
  port_nonempty := defaultPort_ne_nil

/-- That machine with PID 77 and an editor with PID 900. -/
def editorTable : VmTable where
  processes :=
    [rootProcess 77 1 "qemu-system-x86".toList defaultLaunch.commandLine
        (by decide +kernel),
      rootProcess 900 1 "nvim".toList "nvim".toList (by decide)]
  pids_nodup := by decide
  launch pid := if pid = 77 then some defaultLaunch else none
  launch_args := by
    intro process hmem call hcall
    simp only [List.mem_cons, List.not_mem_nil, or_false] at hmem
    rcases hmem with rfl | rfl
    · have hsame : some defaultLaunch = some call := hcall
      rw [← Option.some.inj hsame, rootProcess]
    · simp [rootProcess] at hcall

example : guestSshPort editorTable.toProcessTable (numeral 77) =
    "9001".toList := by decide +kernel

/-- Typing the PID of the editor yields the port of the machine: its line
holds the digits 900 in the port. -/
theorem guestSshPort_not_carried : ¬ CarriesPort editorTable 900 := by
  intro h
  have hnone : ∀ process ∈ editorTable.processes, process.pid = 900 →
      editorTable.portOf process = none := by
    intro process hmem hpid
    simp [VmTable.portOf, editorTable, hpid]
  exact absurd (h.2 hnone) (by decide +kernel)

end Bodhi
