/-
The history file that several zsh shells share, and the precmd hook that takes
the last line of it away after a command that failed.
-/
import Bodhi.RunInvariant
import Bodhi.ShellText

namespace Bodhi

universe u

/-- One alternative of a zsh pattern: a literal text, and whether a star
follows it. -/
structure GlobAlternative where
  literal : Text
  star : Bool

def GlobAlternative.accepts (alternative : GlobAlternative) (text : Text) :
    Bool :=
  if alternative.star then alternative.literal.isPrefixOf text
  else text = alternative.literal

def commandAlternatives : List GlobAlternative :=
  [⟨"ls".toList, false⟩, ⟨"ls ".toList, true⟩, ⟨"cd".toList, false⟩,
    ⟨"cd ".toList, true⟩, ⟨"cat".toList, false⟩, ⟨"cat ".toList, true⟩,
    ⟨"eza".toList, false⟩, ⟨"eza ".toList, true⟩, ⟨"rm".toList, false⟩,
    ⟨"rm ".toList, true⟩, ⟨"man".toList, false⟩, ⟨"man ".toList, true⟩,
    ⟨"bat".toList, false⟩, ⟨"bat ".toList, true⟩, ⟨"pwd".toList, false⟩,
    ⟨"exit".toList, false⟩, ⟨"clear".toList, false⟩, ⟨[], false⟩]

def editorAlternatives : List GlobAlternative :=
  [⟨"nvim ".toList, true⟩, ⟨"nv ".toList, true⟩, ⟨"vim ".toList, true⟩,
    ⟨[], false⟩]

/-- HISTORY_IGNORE: an alternative of the first group and then one of the
second. -/
def historyIgnore (entry : Text) : Bool :=
  (List.range (entry.length + 1)).any fun n =>
    commandAlternatives.any (·.accepts (entry.take n)) &&
      editorAlternatives.any (·.accepts (entry.drop n))

/-- A newline inside an entry is written after a backslash. -/
def escapeLines : List Text → List Text
  | [] => []
  | [line] => [line]
  | line :: next :: rest => (line ++ ['\\']) :: escapeLines (next :: rest)

/-- The lines that an entry takes in the file. -/
def physicalLines (entry : Text) : List Text :=
  escapeLines (entry.splitOn '\n')

/-- A shell: the newest entry of its own list, the value of `$?`, and the line
it is running, if it is not at its prompt. -/
structure Zsh where
  newest : Option Text
  status : Nat
  running : Option Text

/-- What becomes of an entered line: nothing for an empty line and for one that
starts with a space, otherwise an entry in which blanks are reduced. -/
def historyEntry (reduceBlanks : Text → Text) (line : Text) : Option Text :=
  if line = [] ∨ line.head? = some ' ' then none
  else some (reduceBlanks line)

/-- The entry that is appended to the file: not one that repeats the newest
entry of the shell, and not one that HISTORY_IGNORE matches. -/
def appendedEntry (reduceBlanks : Text → Text) (zsh : Zsh) (line : Text) :
    Option Text :=
  (historyEntry reduceBlanks line).filter fun entry =>
    zsh.newest ≠ some entry && !historyIgnore entry

/-- `[[ $? -ne 0 ]] && sed -i '$d' "$HISTFILE"`. -/
def noFailedCmdInHistory (status : Nat) (histfile : List Text) : List Text :=
  if status ≠ 0 then histfile.dropLast else histfile

/-- The lines of the file, the shells, and the entries that the file ought to
hold; an entry names the shell that is still running its line. -/
structure History (σ : Type u) where
  histfile : List Text
  shells : σ → Zsh
  entries : List (Option σ × Text)

/-- The turn of one shell: at its prompt the line is entered, and while it runs
a line that line ends with the status. -/
structure Turn (σ : Type u) where
  shell : σ
  line : Text
  status : Nat

section Steps

variable {σ : Type u} [DecidableEq σ] (reduceBlanks : Text → Text)

/-- The entries without the one that a shell is running. -/
def dropRunning (shell : σ) (entries : List (Option σ × Text)) :
    List (Option σ × Text) :=
  entries.filter fun entry => entry.1 ≠ some shell

/-- The entry that a shell is running stays for good. -/
def keepRunning (shell : σ) (entries : List (Option σ × Text)) :
    List (Option σ × Text) :=
  entries.map fun entry => if entry.1 = some shell then (none, entry.2) else entry

/-- A line is entered, and appended to the file before it runs. -/
def enterLine (history : History σ) (shell : σ) (line : Text) : History σ :=
  let zsh := history.shells shell
  let appended := appendedEntry reduceBlanks zsh line
  { histfile := history.histfile ++ (appended.map physicalLines).getD []
    shells := Function.update history.shells shell
      { newest := (historyEntry reduceBlanks line).or zsh.newest
        status := zsh.status
        running := some line }
    entries := history.entries ++
      (appended.map fun entry => (some shell, entry)).toList }

/-- The value of `$?` in precmd; an empty line leaves the old one. -/
def statusAfter (zsh : Zsh) (line : Text) (status : Nat) : Nat :=
  if line = [] then zsh.status else status

/-- A line has ended, and precmd runs the hook. -/
def precmd (history : History σ) (shell : σ) (line : Text) (status : Nat) :
    History σ :=
  let zsh := history.shells shell
  let status := statusAfter zsh line status
  { histfile := noFailedCmdInHistory status history.histfile
    shells := Function.update history.shells shell
      { newest := zsh.newest
        status := status
        running := none }
    entries :=
      if status ≠ 0 then dropRunning shell history.entries
      else keepRunning shell history.entries }

def historyMachine : Machine (History σ) (Turn σ) where
  next history turn :=
    match (history.shells turn.shell).running with
    | none => enterLine reduceBlanks history turn.shell turn.line
    | some line => precmd history turn.shell line turn.status

end Steps

/-- The lines of some entries in the file. -/
def entryLines {σ : Type u} (entries : List (Option σ × Text)) : List Text :=
  entries.flatMap fun entry => physicalLines entry.2

/-- The file holds exactly the entries it ought to hold. -/
def HoldsEntries {σ : Type u} (history : History σ) : Prop :=
  history.histfile = entryLines history.entries

/-- The last line of the file is all that a failed line of the shell left: its
entry takes one line, and every line after it is the same; or there is no entry
at all. -/
def OwnLineLast {σ : Type u} (history : History σ) (shell : σ) : Prop :=
  history.entries = [] ∨
    ∃ before entry after, history.entries = before ++ (some shell, entry) :: after ∧
      ∃ line, physicalLines entry = [line] ∧
        ∀ other ∈ entryLines after, other = line

/-- If a line fails in this turn, the last line of the file is its own. -/
def FailsOnOwnLine {σ : Type u} (history : History σ) (turn : Turn σ) : Prop :=
  ∀ line, (history.shells turn.shell).running = some line →
    statusAfter (history.shells turn.shell) line turn.status ≠ 0 →
      OwnLineLast history turn.shell

/-- Shells at their prompts, and a file with some earlier entries. -/
def historyStart {σ : Type u} (newest : σ → Option Text) (status : σ → Nat)
    (earlier : List Text) : History σ where
  histfile := entryLines (earlier.map fun entry => ((none : Option σ), entry))
  shells shell := ⟨newest shell, status shell, none⟩
  entries := earlier.map fun entry => (none, entry)

section Lines

variable {σ : Type u}

theorem escapeLines_ne_nil {lines : List Text} (h : lines ≠ []) :
    escapeLines lines ≠ [] := by
  match lines with
  | [] => exact absurd rfl h
  | [line] => exact List.cons_ne_nil _ _
  | line :: next :: rest => exact List.cons_ne_nil _ _

theorem physicalLines_ne_nil (entry : Text) : physicalLines entry ≠ [] :=
  escapeLines_ne_nil (List.splitOnP_ne_nil _ _)

theorem entryLines_append (first last : List (Option σ × Text)) :
    entryLines (first ++ last) = entryLines first ++ entryLines last :=
  List.flatMap_append

theorem entryLines_cons (entry : Option σ × Text)
    (entries : List (Option σ × Text)) :
    entryLines (entry :: entries) =
      physicalLines entry.2 ++ entryLines entries :=
  List.flatMap_cons

theorem entryLines_eq_nil_iff {entries : List (Option σ × Text)} :
    entryLines entries = [] ↔ entries = [] := by
  cases entries with
  | nil => simp [entryLines]
  | cons entry entries => simp [entryLines_cons, physicalLines_ne_nil]

end Lines

section Tags

variable {σ : Type u} [DecidableEq σ]

/-- A shell at its prompt runs no entry, and a running shell at most one. -/
def RunsOne (history : History σ) : Prop :=
  (history.entries.filterMap Prod.fst).Nodup ∧
    ∀ shell, (history.shells shell).running = none →
      shell ∉ history.entries.filterMap Prod.fst

theorem entryLines_keepRunning (shell : σ)
    (entries : List (Option σ × Text)) :
    entryLines (keepRunning shell entries) = entryLines entries := by
  unfold entryLines keepRunning
  rw [List.flatMap_map]
  apply List.flatMap_congr
  intro entry _
  split <;> rfl

theorem tags_keepRunning (shell : σ) (entries : List (Option σ × Text)) :
    (keepRunning shell entries).filterMap Prod.fst =
      (entries.filterMap Prod.fst).filter (· ≠ shell) := by
  rw [keepRunning]
  rw [List.filterMap_map, List.filter_filterMap]
  apply List.filterMap_congr
  intro entry _
  obtain ⟨tag, entry⟩ := entry
  cases tag with
  | none => rfl
  | some other => by_cases h : other = shell <;> simp [h, Option.filter]

theorem tags_dropRunning (shell : σ) (entries : List (Option σ × Text)) :
    (dropRunning shell entries).filterMap Prod.fst =
      (entries.filterMap Prod.fst).filter (· ≠ shell) := by
  rw [dropRunning]
  rw [List.filterMap_filter, List.filter_filterMap]
  apply List.filterMap_congr
  intro entry _
  obtain ⟨tag, entry⟩ := entry
  cases tag with
  | none => rfl
  | some other => by_cases h : other = shell <;> simp [h, Option.filter]

theorem dropRunning_of_not_mem {shell : σ} {entries : List (Option σ × Text)}
    (h : shell ∉ entries.filterMap Prod.fst) :
    dropRunning shell entries = entries := by
  apply List.filter_eq_self.2
  intro entry hentry
  rw [decide_eq_true_iff]
  intro htag
  exact h (List.mem_filterMap.2 ⟨entry, hentry, htag⟩)

theorem dropRunning_split {shell : σ} {entry : Text}
    {before after : List (Option σ × Text)}
    (h : ((before ++ (some shell, entry) :: after).filterMap
      Prod.fst).Nodup) :
    dropRunning shell (before ++ (some shell, entry) :: after) =
      before ++ after := by
  have htag : ((some shell, entry) : Option σ × Text).1 = some shell := rfl
  rw [List.filterMap_append, List.filterMap_cons_some htag,
    List.nodup_append] at h
  obtain ⟨_, hafter, hdisjoint⟩ := h
  have hbefore : shell ∉ before.filterMap Prod.fst := fun hmem =>
    hdisjoint shell hmem shell List.mem_cons_self rfl
  have hkept := dropRunning_of_not_mem hbefore
  have hkept' := dropRunning_of_not_mem (List.nodup_cons.1 hafter).1
  unfold dropRunning at hkept hkept' ⊢
  rw [List.filter_append, List.filter_cons_of_neg (by simp), hkept, hkept']

end Tags

section Hook

variable {σ : Type u} [DecidableEq σ] {reduceBlanks : Text → Text}

/-- The hook takes exactly the failed entry of the shell away if and only if
the last line is its own. -/
theorem dropLast_entryLines_iff {history : History σ} (hone : RunsOne history)
    (shell : σ) :
    (entryLines history.entries).dropLast =
        entryLines (dropRunning shell history.entries) ↔
      OwnLineLast history shell := by
  obtain ⟨_, _, entries⟩ := history
  have hnodup : (entries.filterMap Prod.fst).Nodup := hone.1
  have hsplit : ∀ before entry after,
      entries = before ++ (some shell, entry) :: after →
        ((entryLines entries).dropLast =
            entryLines (dropRunning shell entries) ↔
          ∃ line, physicalLines entry = [line] ∧
            ∀ other ∈ entryLines after, other = line) := by
    rintro before entry after rfl
    have hne : physicalLines entry ++ entryLines after ≠ [] := by
      simp [physicalLines_ne_nil]
    rw [dropRunning_split hnodup, entryLines_append, entryLines_append,
      entryLines_cons, List.dropLast_append_of_ne_nil hne,
      List.append_cancel_left_eq,
      dropLast_append_eq_right_iff (physicalLines_ne_nil entry)]
  by_cases hmem : shell ∈ entries.filterMap Prod.fst
  · obtain ⟨⟨tag, entry⟩, hentry, htag⟩ := List.mem_filterMap.1 hmem
    obtain rfl : tag = some shell := htag
    constructor
    · intro h
      obtain ⟨before, after, heq⟩ := List.append_of_mem hentry
      exact Or.inr ⟨before, entry, after, heq, (hsplit _ _ _ heq).1 h⟩
    · rintro (rfl | ⟨before, entry, after, heq, hline⟩)
      · cases hmem
      · exact (hsplit _ _ _ heq).2 hline
  · rw [dropRunning_of_not_mem hmem, dropLast_eq_self_iff,
      entryLines_eq_nil_iff]
    refine ⟨Or.inl, fun h => h.resolve_right ?_⟩
    rintro ⟨before, entry, after, rfl, _⟩
    exact hmem (by simp)

theorem enterLine_keeps {history : History σ} {shell : σ} (line : Text)
    (hone : RunsOne history)
    (hprompt : (history.shells shell).running = none) :
    RunsOne (enterLine reduceBlanks history shell line) := by
  have hfresh := hone.2 shell hprompt
  have htags : (enterLine reduceBlanks history shell line).entries.filterMap
      Prod.fst = history.entries.filterMap Prod.fst ∨
      (enterLine reduceBlanks history shell line).entries.filterMap Prod.fst =
        history.entries.filterMap Prod.fst ++ [shell] := by
    rw [enterLine]
    dsimp only
    cases appendedEntry reduceBlanks (history.shells shell) line with
    | none => exact Or.inl (by simp)
    | some entry => exact Or.inr (by simp)
  refine ⟨?_, fun other hother => ?_⟩
  · rcases htags with htags | htags <;> rw [htags]
    · exact hone.1
    · exact List.nodup_append.2 ⟨hone.1, by simp, fun a ha b hb heq =>
        hfresh (by rwa [← List.mem_singleton.1 hb, ← heq])⟩
  · have hne : other ≠ shell := by
      rintro rfl
      simp [enterLine] at hother
    have hold : (history.shells other).running = none := by
      simpa [enterLine, hne] using hother
    rcases htags with htags | htags <;> rw [htags]
    · exact hone.2 other hold
    · simpa [hne] using hone.2 other hold

theorem precmd_keeps {history : History σ} {shell : σ} (line : Text)
    (status : Nat) (hone : RunsOne history) :
    RunsOne (precmd history shell line status) := by
  have htags : (precmd history shell line status).entries.filterMap Prod.fst =
      (history.entries.filterMap Prod.fst).filter (· ≠ shell) := by
    rw [precmd]
    dsimp only
    split
    · exact tags_dropRunning shell history.entries
    · exact tags_keepRunning shell history.entries
  refine ⟨htags ▸ hone.1.filter _, fun other hother => ?_⟩
  rw [htags, List.mem_filter]
  rintro ⟨hmem, hne⟩
  rw [decide_eq_true_iff] at hne
  refine hone.2 other ?_ hmem
  simpa [precmd, hne] using hother

/-- A line that is entered goes to the end of the file and of the entries. -/
theorem enterLine_holds {history : History σ} (shell : σ) (line : Text)
    (h : HoldsEntries history) :
    HoldsEntries (enterLine reduceBlanks history shell line) := by
  unfold HoldsEntries enterLine at *
  dsimp only
  cases appendedEntry reduceBlanks (history.shells shell) line with
  | none => simpa using h
  | some entry => simp [h, entryLines]

theorem precmd_holds_iff {history : History σ} {shell : σ} {line : Text}
    {status : Nat} (hone : RunsOne history) (h : HoldsEntries history) :
    HoldsEntries (precmd history shell line status) ↔
      (statusAfter (history.shells shell) line status ≠ 0 →
        OwnLineLast history shell) := by
  rw [HoldsEntries] at *
  unfold precmd noFailedCmdInHistory
  dsimp only
  split
  · next hfails =>
      rw [h, dropLast_entryLines_iff hone]
      exact ⟨fun hown _ => hown, fun hown => hown hfails⟩
  · next hworks =>
      rw [entryLines_keepRunning, h]
      exact iff_of_true rfl fun hfails => absurd hfails hworks

end Hook

/-- In any interleaving of the prompt cycles of any shells, the file holds the
earlier entries and those of the cycles that were recorded and did not fail,
in every state exactly if no line fails unless the last line of the file is
its own. -/
theorem history_holdsEntries_iff {σ : Type u} [DecidableEq σ]
    (reduceBlanks : Text → Text) (newest : σ → Option Text) (status : σ → Nat)
    (earlier : List Text) (turns : List (Turn σ)) :
    (historyMachine reduceBlanks).Always HoldsEntries
        (historyStart newest status earlier) turns ↔
      (historyMachine reduceBlanks).Throughout FailsOnOwnLine
        (historyStart newest status earlier) turns := by
  refine Machine.always_iff_throughout (I := RunsOne) ?_ ?_ ?_ rfl
  · intro history turn hone _
    rw [historyMachine]
    dsimp only
    split
    · next hprompt => exact enterLine_keeps turn.line hone hprompt
    · exact precmd_keeps _ turn.status hone
  · intro history turn hone hholds
    rw [historyMachine]
    dsimp only
    split
    · next hprompt =>
        apply iff_of_true (enterLine_holds _ _ hholds)
        intro line hline
        rw [hprompt] at hline
        cases hline
    · next line hrunning =>
        rw [precmd_holds_iff hone hholds]
        constructor
        · intro h line' hline'
          rw [hrunning, Option.some.injEq] at hline'
          exact hline' ▸ h
        · exact fun h => h line hrunning
  · have htags : (historyStart newest status earlier).entries.filterMap
        Prod.fst = [] := by
      simp [historyStart]
    exact ⟨by simp [htags], fun shell _ => by simp [htags]⟩

/-- One shell that runs `git status`, mistypes a command and repeats it. -/
def repeatedFailure : List (Turn Unit) :=
  let cycle := fun line status =>
    [(⟨(), line, 0⟩ : Turn Unit), ⟨(), [], status⟩]
  cycle "git status".toList 0 ++ cycle "gti".toList 127 ++
    cycle "gti".toList 127

/-- The repeated command is not appended again, so the hook takes away the
entry of the command that worked. -/
theorem history_not_holdsEntries :
    ¬ (historyMachine id).Always HoldsEntries
      (historyStart (fun _ => none) (fun _ => 0) []) repeatedFailure := by
  intro h
  have hlast := h.last
  rw [HoldsEntries] at hlast
  exact absurd hlast (by decide)

end Bodhi
