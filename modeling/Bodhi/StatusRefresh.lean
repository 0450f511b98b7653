/-
The `refresh` command of dwm-status-bar.sh: which sleeping loops it wakes.
-/
import Bodhi.ProcessTable

namespace Bodhi

def sleepName : Text := "sleep".toList

/-- The words that `$target_pid` is split into: the PIDs that `pgrep` prints,
echoed on one line, with the digits of the own PID erased wherever they
stand. -/
def targetPid (ownPid : Nat) (pids : List Nat) : List Text :=
  let printed := commandSubst (unlines (pids.map numeral))
  let echoed := [' '].intercalate (splitWords printed)
  let erased := eraseAll (numeral ownPid) echoed
  splitWords (commandSubst (squeeze ' ' erased ++ ['\n']))

/-- `refresh`: the processes that are signalled. -/
def refresh (scriptName : Text) (ownPid : Nat) (table : ProcessTable) :
    List Process :=
  pkillParent table
    (targetPid ownPid (pgrepFull scriptName table) ++ [sleepName])

/-- The PIDs that `refresh` is after: all that match but its own. -/
def otherPids (scriptName : Text) (ownPid : Nat) (table : ProcessTable) :
    List Nat :=
  (pgrepFull scriptName table).filter (· ≠ ownPid)

/-- The numeral of a PID without the digits of the own PID. -/
def withoutOwn (ownPid pid : Nat) : Text :=
  eraseAll (numeral ownPid) (numeral pid)

/-- The texts that are left of the matching PIDs. -/
def leftovers (ownPid : Nat) (pids : List Nat) : List Text :=
  (pids.map (withoutOwn ownPid)).filter fun text => !text.isEmpty

theorem splitWords_unlines_numeral (pids : List Nat) :
    splitWords (unlines (pids.map numeral)) = pids.map numeral := by
  induction pids with
  | nil => rfl
  | cons pid rest ih =>
      have hline := fields_word_cons isBlank (x := '\n')
        (unlines (rest.map numeral)) (numeralWord pid).nonempty
        (numeralWord pid).solid (by decide)
      simp only [splitWords] at ih
      rw [ih] at hline
      simpa [splitWords, unlines, numeralWord] using hline

theorem isDigit_of_mem_withoutOwn {ownPid pid : Nat} {c : Char}
    (h : c ∈ withoutOwn ownPid pid) : c.isDigit = true :=
  isDigit_of_mem_numeral (mem_eraseFrom h)

/-- The words of what is left of each PID, in turn. -/
theorem flatMap_fields_withoutOwn (ownPid : Nat) (pids : List Nat) :
    (pids.flatMap fun pid => fields isBlank (withoutOwn ownPid pid)) =
      leftovers ownPid pids := by
  induction pids with
  | nil => rfl
  | cons pid rest ih =>
      rw [List.flatMap_cons, ih, leftovers, leftovers, List.map_cons,
        List.filter_cons]
      by_cases hempty : withoutOwn ownPid pid = []
      · simp [hempty]
      · have hfield : fields isBlank (withoutOwn ownPid pid) =
            [withoutOwn ownPid pid] :=
          fields_eq_singleton isBlank hempty fun c hc =>
            isBlank_of_isDigit (isDigit_of_mem_withoutOwn hc)
        simp [hempty, hfield]

/-- The pipeline leaves exactly the non-empty leftovers. -/
theorem targetPid_eq_leftovers (ownPid : Nat) (pids : List Nat) :
    targetPid ownPid pids = leftovers ownPid pids := by
  have hspace : ' ' ∉ numeral ownPid := not_mem_numeral (by decide)
  have herased : eraseAll (numeral ownPid)
      ([' '].intercalate (pids.map numeral)) =
        [' '].intercalate (pids.map (withoutOwn ownPid)) := by
    rw [eraseAll_intercalate hspace, List.map_map]
    rfl
  have hnewline := fields_append_sep isBlank
    (squeeze ' ' ([' '].intercalate (pids.map (withoutOwn ownPid)))) []
    (x := '\n') (by decide)
  rw [targetPid, splitWords_commandSubst, splitWords_commandSubst,
    splitWords_unlines_numeral, herased, splitWords, hnewline, fields_nil,
    List.append_nil, fields_squeeze isBlank (by decide),
    fields_intercalate isBlank (by decide), List.flatMap_map,
    flatMap_fields_withoutOwn]

theorem mem_leftovers_digits {ownPid : Nat} {pids : List Nat} {text : Text}
    (h : text ∈ leftovers ownPid pids) :
    text ≠ [] ∧ ∀ c ∈ text, c.isDigit = true := by
  simp only [leftovers, List.mem_filter, List.mem_map, Bool.not_eq_true',
    List.isEmpty_eq_false_iff] at h
  obtain ⟨⟨pid, _, rfl⟩, hne⟩ := h
  exact ⟨hne, fun c hc => isDigit_of_mem_withoutOwn hc⟩

/-- `pkill` acts only when one text is left; it then reads it as a PID. -/
theorem mem_refresh_iff (scriptName : Text) (ownPid : Nat)
    (table : ProcessTable) (process : Process) :
    process ∈ refresh scriptName ownPid table ↔
      ∃ text, leftovers ownPid (pgrepFull scriptName table) = [text] ∧
        process ∈ table.processes ∧ process.ppid = numeralValue text ∧
        sleepName <:+: process.name := by
  rw [refresh, targetPid_eq_leftovers]
  have hdigits : ∀ text ∈ leftovers ownPid (pgrepFull scriptName table),
      text ≠ [] ∧ ∀ c ∈ text, c.isDigit = true :=
    fun text h => mem_leftovers_digits h
  generalize leftovers ownPid (pgrepFull scriptName table) = texts at hdigits ⊢
  have hsleep : readPidList sleepName = none := by decide
  match texts with
  | [] => simp [pkillParent, hsleep]
  | [text] =>
      obtain ⟨hne, htext⟩ := hdigits text (List.mem_singleton_self text)
      simp [pkillParent, readPidList_digits hne htext]
  | first :: second :: rest =>
      cases rest <;> simp [pkillParent]

/-- A `sleep` whose parent is a given process. -/
def SleepChild (table : ProcessTable) (pid : Nat) : Prop :=
  ∃ process ∈ table.processes, process.name = sleepName ∧ process.ppid = pid

/-- Everything that the pattern `sleep` matches below a process is called
`sleep`. -/
def OnlySleeps (table : ProcessTable) (pid : Nat) : Prop :=
  ∀ process ∈ table.processes, process.ppid = pid →
    sleepName <:+: process.name → process.name = sleepName

/-- The processes that `refresh` signals are the sleeping children of the
other matching processes. -/
def WakesLoops (scriptName : Text) (ownPid : Nat) (table : ProcessTable) :
    Prop :=
  ∀ process ∈ table.processes,
    process ∈ refresh scriptName ownPid table ↔
      process.name = sleepName ∧
        process.ppid ∈ otherPids scriptName ownPid table

/-- Either one text is left when the own digits are erased, it is the PID of
another matching process below which `sleep` matches only sleeps, and no third
process that matches has one; or no other matching process has a `sleep`, and
if one text is left nothing below that PID matches. -/
def OneLoopLeft (scriptName : Text) (ownPid : Nat) (table : ProcessTable) :
    Prop :=
  (∃ text, leftovers ownPid (pgrepFull scriptName table) = [text] ∧
      numeralValue text ∈ otherPids scriptName ownPid table ∧
      OnlySleeps table (numeralValue text) ∧
      ∀ pid ∈ otherPids scriptName ownPid table,
        pid ≠ numeralValue text → ¬ SleepChild table pid) ∨
    ((∀ pid ∈ otherPids scriptName ownPid table, ¬ SleepChild table pid) ∧
      ∀ text, leftovers ownPid (pgrepFull scriptName table) = [text] →
        ∀ process ∈ table.processes, process.ppid = numeralValue text →
          ¬ sleepName <:+: process.name)

/-- `refresh` wakes exactly the running loops exactly when one loop is left. -/
theorem refresh_wakesLoops_iff (scriptName : Text) (ownPid : Nat)
    (table : ProcessTable) :
    WakesLoops scriptName ownPid table ↔
      OneLoopLeft scriptName ownPid table := by
  constructor
  · intro h
    by_cases hsome : ∃ pid ∈ otherPids scriptName ownPid table,
        SleepChild table pid
    · obtain ⟨_, hother, process, hprocess, hname, rfl⟩ := hsome
      obtain ⟨text, hleft, _, hppid, _⟩ :=
        (mem_refresh_iff _ _ _ _).1 ((h process hprocess).2 ⟨hname, hother⟩)
      refine Or.inl ⟨text, hleft, hppid ▸ hother, ?_, ?_⟩
      · intro child hchild hparent hmatch
        exact ((h child hchild).1 ((mem_refresh_iff _ _ _ _).2
          ⟨text, hleft, hchild, hparent, hmatch⟩)).1
      · rintro pid hpid hne ⟨child, hchild, hsleep, rfl⟩
        obtain ⟨text', hleft', _, hparent, _⟩ :=
          (mem_refresh_iff _ _ _ _).1 ((h child hchild).2 ⟨hsleep, hpid⟩)
        rw [hleft, List.singleton_inj] at hleft'
        exact hne (hleft' ▸ hparent)
    · have hnone : ∀ pid ∈ otherPids scriptName ownPid table,
          ¬ SleepChild table pid := fun pid hpid hchild =>
        hsome ⟨pid, hpid, hchild⟩
      refine Or.inr ⟨hnone, ?_⟩
      intro text hleft process hprocess hparent hmatch
      have hwanted := (h process hprocess).1 ((mem_refresh_iff _ _ _ _).2
        ⟨text, hleft, hprocess, hparent, hmatch⟩)
      exact hnone _ hwanted.2 ⟨process, hprocess, hwanted.1, rfl⟩
  · intro h process hprocess
    rw [mem_refresh_iff]
    rcases h with ⟨text, hleft, hother, honly, hrest⟩ | ⟨hnone, hquiet⟩
    · constructor
      · rintro ⟨text', hleft', _, hparent, hmatch⟩
        rw [hleft, List.singleton_inj] at hleft'
        subst hleft'
        exact ⟨honly process hprocess hparent hmatch, hparent ▸ hother⟩
      · rintro ⟨hname, hwanted⟩
        refine ⟨text, hleft, hprocess, ?_, hname ▸ List.infix_refl _⟩
        by_contra hne
        exact hrest _ hwanted hne ⟨process, hprocess, hname, rfl⟩
    · constructor
      · rintro ⟨text, hleft, _, hparent, hmatch⟩
        exact absurd hmatch (hquiet text hleft process hprocess hparent)
      · rintro ⟨hname, hwanted⟩
        exact absurd ⟨process, hprocess, hname, rfl⟩ (hnone _ hwanted)

theorem leftovers_of_not_isInfix {ownPid : Nat} {pids : List Nat}
    (h : ∀ pid ∈ pids, pid ≠ ownPid → ¬ numeral ownPid <:+: numeral pid) :
    leftovers ownPid pids = (pids.filter (· ≠ ownPid)).map numeral := by
  induction pids with
  | nil => rfl
  | cons pid rest ih =>
      have hrest := ih fun other hmem => h other (List.mem_cons_of_mem _ hmem)
      simp only [leftovers] at hrest
      by_cases hown : pid = ownPid
      · subst hown
        simp [leftovers, withoutOwn, eraseAll_self, hrest]
      · have hkeep : withoutOwn ownPid pid = numeral pid :=
          eraseAll_of_not_isInfix (h pid List.mem_cons_self hown)
        simp [leftovers, hkeep, hown, hrest, numeral_ne_nil]

/-- With one other matching process, whose PID does not hold the digits of the
own PID, only the names below it matter. -/
theorem oneLoopLeft_of_single {scriptName : Text} {ownPid loopPid : Nat}
    {table : ProcessTable}
    (hothers : otherPids scriptName ownPid table = [loopPid])
    (hdigits : ¬ numeral ownPid <:+: numeral loopPid)
    (honly : OnlySleeps table loopPid) :
    OneLoopLeft scriptName ownPid table := by
  have hleft : leftovers ownPid (pgrepFull scriptName table) =
      [numeral loopPid] := by
    rw [leftovers_of_not_isInfix, ← otherPids, hothers]
    · rfl
    · intro pid hmem hne
      have hother : pid ∈ otherPids scriptName ownPid table := by
        simp [otherPids, hmem, hne]
      rw [hothers, List.mem_singleton] at hother
      exact hother ▸ hdigits
  refine Or.inl ⟨numeral loopPid, hleft, ?_, ?_, ?_⟩
  · simp [hothers]
  · simpa using honly
  · intro pid hpid hne
    rw [hothers, List.mem_singleton] at hpid
    exact absurd (by simp [hpid]) hne

/-- The status loop, its `sleep`, and a key binding that runs `refresh`
through a wrapping shell. -/
def keyBindingTable : ProcessTable where
  processes :=
    [rootProcess 400 1 "sh".toList "sh dwm-status-bar start".toList
        (by decide),
      rootProcess 410 400 sleepName "sleep 10s".toList (by decide),
      rootProcess 899 1 "sh".toList "sh -c dwm-status-bar refresh".toList
        (by decide),
      rootProcess 900 899 "sh".toList "sh dwm-status-bar refresh".toList
        (by decide)]
  pids_nodup := by decide

/-- The status loop with PID 123 while `refresh` has PID 12, and a `sleep`
that belongs to process 3. -/
def sharedDigitsTable : ProcessTable where
  processes :=
    [rootProcess 3 1 "sh".toList "sh backup.sh".toList (by decide),
      rootProcess 30 3 sleepName "sleep 60".toList (by decide),
      rootProcess 123 1 "sh".toList "sh dwm-status-bar start".toList
        (by decide),
      rootProcess 124 123 sleepName "sleep 10s".toList (by decide),
      rootProcess 12 1 "sh".toList "sh dwm-status-bar refresh".toList
        (by decide)]
  pids_nodup := by decide

/-- From the key binding nothing is woken; with shared digits the `sleep` of
process 3 is killed. -/
theorem refresh_not_wakesLoops :
    ¬ WakesLoops "dwm-status-bar".toList 900 keyBindingTable ∧
      ¬ WakesLoops "dwm-status-bar".toList 12 sharedDigitsTable := by
  constructor
  · intro h
    have hnone : refresh "dwm-status-bar".toList 900 keyBindingTable = [] := by
      decide
    have hsleep := (h _ (List.mem_cons_of_mem _ List.mem_cons_self)).2
      ⟨rfl, by decide⟩
    rw [hnone] at hsleep
    cases hsleep
  · intro h
    have hsleep := (h _ (List.mem_cons_of_mem _ List.mem_cons_self)).1 (by
      decide)
    exact absurd hsleep.2 (by decide)

end Bodhi
