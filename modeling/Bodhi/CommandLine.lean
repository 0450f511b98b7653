/-
The command lines of qemu-vm-manager.sh as a language: which of them run a
command, and with which settings, and at which word the others are rejected.
-/
import Bodhi.FlagsLastWins

namespace Bodhi

section CommandLine

variable (G : Globbing)

/-- The values for which the branch of a flag does not exit. -/
def Flag.takes : Flag → Text → Bool
  | .vid, value => vidInRange value
  | .port, value => (parsePortFlag G value).isOk
  | _, _ => true

/-- The error with which the branch of a flag exits. -/
def Flag.refusal : Flag → FlagError
  | .port => .portPairs
  | _ => .vidRange

theorem parsePortElements_error {elements : List Text} {fwd : Text}
    {e : FlagError} (h : parsePortElements G elements fwd = .error e) :
    e = .portPairs := by
  induction elements generalizing fwd with
  | nil => cases h
  | cons element rest ih =>
      simp only [parsePortElements] at h
      split at h
      · cases h
        rfl
      · exact ih h

/-- A branch writes its variables or exits with its own error. -/
theorem setFlag_eq (flag : Flag) (value : Text) (s : Settings) :
    setFlag G flag value s =
      if flag.takes G value then .ok (writeFlag G flag value s)
      else .error flag.refusal := by
  cases flag with
  | vid =>
      by_cases hrange : vidInRange value
      · simp [setFlag, parseVidFlag, writeFlag, Flag.takes, hrange,
          Except.toOption]
      · simp [setFlag, parseVidFlag, Flag.takes, Flag.refusal, hrange]
  | port =>
      cases hparse : parsePortFlag G value with
      | ok fwd =>
          simp [setFlag, writeFlag, Flag.takes, hparse, Except.isOk,
            Except.toBool, Except.map, Except.toOption]
      | error e =>
          have he := parsePortElements_error G hparse
          simp [setFlag, Flag.takes, Flag.refusal, hparse, Except.isOk,
            Except.toBool, Except.map, he]
  | _ => rfl

theorem Flag.token_of_ofToken {token : Text} {flag : Flag}
    (h : Flag.ofToken token = some flag) : token = flag.token := by
  have hfound := List.find?_some h
  exact (beq_iff_eq.1 hfound).symm

/-- The words behind the command that `parse_options` reads to their end:
flags with their values, and perhaps a last flag that has none. -/
structure Options where
  pairs : List (Flag × Text)
  last : Option Flag

namespace Options

def words (o : Options) : List Text :=
  flagWords o.pairs ++ (o.last.map Flag.token).toList

/-- The branches that run, with the values that they get. -/
def branches (o : Options) : List (Flag × Text) :=
  o.pairs ++ (o.last.map fun flag => (flag, [])).toList

/-- A value that is not empty is given to each flag but the last, and every
branch takes what it gets. -/
structure Taken (o : Options) : Prop where
  value : ∀ pair ∈ o.pairs, pair.2 ≠ []
  takes : ∀ branch ∈ o.branches, branch.1.takes G branch.2

end Options

/-- The words at which the loop of `parse_options` exits. -/
inductive Refused : List Text → FlagError → Prop
  | unknown (token : Text) (more : List Text) :
      Flag.ofToken token = none →
        Refused (token :: more) (.unknownOption token)
  | value (flag : Flag) (more : List Text) :
      flag.takes G (more.headD []) = false →
        Refused (flag.token :: more) flag.refusal
  | empty (flag : Flag) (more : List Text) :
      flag.takes G [] = true →
        Refused (flag.token :: [] :: more) (.unknownOption [])

theorem parseLoop_pairs {pairs : List (Flag × Text)}
    (hvalue : ∀ pair ∈ pairs, pair.2 ≠ [])
    (htakes : ∀ pair ∈ pairs, pair.1.takes G pair.2) (rest : List Text)
    (s : Settings) :
    parseLoop G (flagWords pairs ++ rest) s =
      parseLoop G rest (settleFlags G pairs s) := by
  induction pairs generalizing s with
  | nil => rfl
  | cons pair others ih =>
      have hset := setFlag_eq G pair.1 pair.2 s
      rw [if_pos (htakes pair List.mem_cons_self)] at hset
      have hne := hvalue pair List.mem_cons_self
      have hothers := ih
        (fun other hmem => hvalue other (List.mem_cons_of_mem _ hmem))
        (fun other hmem => htakes other (List.mem_cons_of_mem _ hmem))
        (writeFlag G pair.1 pair.2 s)
      change parseLoop G
        (pair.1.token :: pair.2 :: (flagWords others ++ rest)) s = _
      simp only [parseLoop, Flag.ofToken_token, hset, if_neg hne, hothers]
      rfl

theorem parseLoop_options {o : Options} (h : o.Taken G) (s : Settings) :
    parseLoop G o.words s = .ok (settleFlags G o.branches s) := by
  obtain ⟨pairs, last⟩ := o
  have hpairs := parseLoop_pairs G h.value
    (fun pair hmem => h.takes pair (List.mem_append_left _ hmem))
  cases last with
  | none =>
      have hwords := hpairs [] s
      rw [List.append_nil] at hwords
      simp only [Options.words, Options.branches, Option.map_none,
        Option.toList_none, List.append_nil]
      exact hwords
  | some flag =>
      have htakes := h.takes (flag, [])
        (List.mem_append_right _ List.mem_cons_self)
      have hlast := setFlag_eq G flag [] (settleFlags G pairs s)
      rw [if_pos htakes] at hlast
      have hall : settleFlags G (Options.mk pairs (some flag)).branches s =
          writeFlag G flag [] (settleFlags G pairs s) := by
        rw [settleFlags, Options.branches, List.foldl_append]
        rfl
      refine (hpairs [flag.token] s).trans ?_
      simp only [parseLoop, Flag.ofToken_token, hlast, hall]

theorem parseLoop_refused {rest : List Text} {e : FlagError}
    (h : Refused G rest e) (s : Settings) : parseLoop G rest s = .error e := by
  cases h with
  | unknown token more hunknown =>
      cases more <;> simp [parseLoop, hunknown]
  | value flag more hvalue =>
      cases more with
      | nil =>
          simp only [parseLoop, Flag.ofToken_token, setFlag_eq]
          exact if_neg (by simpa using hvalue)
      | cons value more =>
          have hset := setFlag_eq G flag value s
          rw [if_neg (by simpa using hvalue)] at hset
          simp only [parseLoop, Flag.ofToken_token, hset]
  | empty flag more hempty =>
      have hset := setFlag_eq G flag [] s
      rw [if_pos hempty] at hset
      simp only [parseLoop, Flag.ofToken_token, hset, if_true]
      cases more <;> simp [parseLoop]

/-- A way to read the words: to their end, or to the one at which the loop
exits. -/
inductive Reading (words : List Text) : Prop
  | options (o : Options) : words = o.words → o.Taken G → Reading words
  | refused (pairs : List (Flag × Text)) (rest : List Text) (e : FlagError) :
      words = flagWords pairs ++ rest →
        (∀ pair ∈ pairs, pair.2 ≠ [] ∧ pair.1.takes G pair.2) →
        Refused G rest e → Reading words

theorem Reading.atOnce {words : List Text} {e : FlagError}
    (h : Refused G words e) : Reading G words :=
  .refused [] words e rfl (fun _ hmem => nomatch hmem) h

/-- A flag with a value that it takes comes before words that can be read. -/
theorem Reading.cons {flag : Flag} {value : Text} (hvalue : value ≠ [])
    (htakes : flag.takes G value) {rest : List Text} (h : Reading G rest) :
    Reading G (flag.token :: value :: rest) := by
  cases h with
  | options o hwords htaken =>
      refine .options ⟨(flag, value) :: o.pairs, o.last⟩ ?_ ⟨?_, ?_⟩
      · rw [hwords]
        rfl
      · exact List.forall_mem_cons.2 ⟨hvalue, htaken.value⟩
      · exact List.forall_mem_cons.2 ⟨htakes, htaken.takes⟩
  | refused pairs last e hwords hpairs hrefused =>
      refine .refused ((flag, value) :: pairs) last e ?_ ?_ hrefused
      · rw [hwords]
        rfl
      · exact List.forall_mem_cons.2 ⟨⟨hvalue, htakes⟩, hpairs⟩

theorem reading (words : List Text) : Reading G words := by
  induction words using List.twoStepInduction with
  | nil =>
      refine .options ⟨[], none⟩ rfl ⟨?_, ?_⟩
      · exact fun _ hmem => nomatch hmem
      · exact fun _ hmem => nomatch hmem
  | singleton token =>
      cases hflag : Flag.ofToken token with
      | none => exact .atOnce G (.unknown token [] hflag)
      | some flag =>
          rw [Flag.token_of_ofToken hflag]
          by_cases htakes : flag.takes G []
          · refine .options ⟨[], some flag⟩ rfl ⟨?_, ?_⟩
            · exact fun _ hmem => nomatch hmem
            · exact List.forall_mem_singleton.2 htakes
          · exact .atOnce G (.value flag [] (by simpa using htakes))
  | cons_cons token value rest ih _ =>
      cases hflag : Flag.ofToken token with
      | none => exact .atOnce G (.unknown token _ hflag)
      | some flag =>
          rw [Flag.token_of_ofToken hflag]
          by_cases htakes : flag.takes G value
          · by_cases hvalue : value = []
            · rw [hvalue] at htakes ⊢
              exact .atOnce G (.empty flag rest htakes)
            · exact ih.cons G hvalue htakes
          · exact .atOnce G (.value flag _ (by simpa using htakes))

theorem parseLoop_ok_iff (words : List Text) (s t : Settings) :
    parseLoop G words s = .ok t ↔ ∃ o : Options, words = o.words ∧
      o.Taken G ∧ t = settleFlags G o.branches s := by
  constructor
  · intro h
    cases reading G words with
    | options o hwords htaken =>
        rw [hwords, parseLoop_options G htaken] at h
        exact ⟨o, hwords, htaken, (Except.ok.inj h).symm⟩
    | refused pairs rest e hwords hpairs hrefused =>
        rw [hwords, parseLoop_pairs G (fun pair hmem => (hpairs pair hmem).1)
          (fun pair hmem => (hpairs pair hmem).2),
          parseLoop_refused G hrefused] at h
        cases h
  · rintro ⟨o, rfl, htaken, rfl⟩
    exact parseLoop_options G htaken s

theorem parseLoop_error_iff (words : List Text) (s : Settings)
    (e : FlagError) :
    parseLoop G words s = .error e ↔
      ∃ pairs rest, words = flagWords pairs ++ rest ∧
        (∀ pair ∈ pairs, pair.2 ≠ [] ∧ pair.1.takes G pair.2) ∧
        Refused G rest e := by
  have hloop : ∀ {pairs : List (Flag × Text)} {rest : List Text} {e},
      (∀ pair ∈ pairs, pair.2 ≠ [] ∧ pair.1.takes G pair.2) →
      Refused G rest e → parseLoop G (flagWords pairs ++ rest) s = .error e := by
    intro pairs rest e hpairs hrefused
    rw [parseLoop_pairs G (fun pair hmem => (hpairs pair hmem).1)
      (fun pair hmem => (hpairs pair hmem).2)]
    exact parseLoop_refused G hrefused _
  constructor
  · intro h
    cases reading G words with
    | options o hwords htaken =>
        rw [hwords, parseLoop_options G htaken] at h
        cases h
    | refused pairs rest e' hwords hpairs hrefused =>
        rw [hwords, hloop hpairs hrefused] at h
        obtain rfl := Except.error.inj h
        exact ⟨pairs, rest, hwords, hpairs, hrefused⟩
  · rintro ⟨pairs, rest, rfl, hpairs, hrefused⟩
    exact hloop hpairs hrefused

end CommandLine

section Dispatch

variable (G : Globbing)

theorem Command.ofToken_eq_some_iff {text : Text} {command : Command} :
    Command.ofToken text = some command ↔ text = command.token := by
  constructor
  · intro h
    have hfound := List.find?_some h
    exact (beq_iff_eq.1 hfound).symm
  · rintro rfl
    cases command <;> decide

/-- What is left to do when the options have been read. -/
theorem manager_options {o : Options} (h : o.Taken G) (cmd : Text)
    (environment : Settings) :
    manager G (cmd :: o.words) environment =
      (Command.ofToken cmd).elim (.badCommand cmd) fun command =>
        .runs command (settleFlags G o.branches
          { setDefaulFlags environment with cmd := cmd }) := by
  rw [manager, parseOptions, parseLoop_options G h]
  dsimp only
  rw [settleFlags_cmd]
  dsimp only
  cases Command.ofToken cmd <;> rfl

theorem manager_refused {words : List Text} {e : FlagError}
    (h : ∃ pairs rest, words = flagWords pairs ++ rest ∧
      (∀ pair ∈ pairs, pair.2 ≠ [] ∧ pair.1.takes G pair.2) ∧
      Refused G rest e) (cmd : Text) (environment : Settings) :
    manager G (cmd :: words) environment = .badOptions e := by
  rw [manager, parseOptions, (parseLoop_error_iff G words _ e).2 h]

theorem manager_cases (args : List Text) (environment : Settings) :
    args = [] ∧ manager G args environment = .badOptions .noCommand ∨
      (∃ cmd, ∃ o : Options, args = cmd :: o.words ∧ o.Taken G) ∨
      ∃ cmd words e, args = cmd :: words ∧
        (∃ pairs rest, words = flagWords pairs ++ rest ∧
          (∀ pair ∈ pairs, pair.2 ≠ [] ∧ pair.1.takes G pair.2) ∧
          Refused G rest e) := by
  cases args with
  | nil => exact Or.inl ⟨rfl, rfl⟩
  | cons cmd words =>
      cases reading G words with
      | options o hwords htaken =>
          exact Or.inr (Or.inl ⟨cmd, o, hwords ▸ rfl, htaken⟩)
      | refused pairs rest e hwords hpairs hrefused =>
          exact Or.inr (Or.inr
            ⟨cmd, words, e, rfl, pairs, rest, hwords, hpairs, hrefused⟩)

/-- A command line runs a command exactly if it names the command and its
options can be read to their end; the settings are then those of the branches
in their order.  It is rejected for its command only if the options can be
read, and for its options at the first word that cannot. -/
theorem manager_dispatch (args : List Text) (environment : Settings) :
    (∀ command s, manager G args environment = .runs command s ↔
        ∃ o : Options, args = command.token :: o.words ∧ o.Taken G ∧
          s = settleFlags G o.branches
            { setDefaulFlags environment with cmd := command.token }) ∧
      (∀ token, manager G args environment = .badCommand token ↔
        Command.ofToken token = none ∧
          ∃ o : Options, args = token :: o.words ∧ o.Taken G) ∧
      ∀ e, manager G args environment = .badOptions e ↔
        args = [] ∧ e = .noCommand ∨
          ∃ cmd pairs rest, args = cmd :: (flagWords pairs ++ rest) ∧
            (∀ pair ∈ pairs, pair.2 ≠ [] ∧ pair.1.takes G pair.2) ∧
            Refused G rest e := by
  refine ⟨fun command s => ⟨fun h => ?_, ?_⟩,
    fun token => ⟨fun h => ?_, ?_⟩, fun e => ⟨fun h => ?_, ?_⟩⟩
  · rcases manager_cases G args environment with ⟨_, heq⟩ |
      ⟨cmd, o, rfl, htaken⟩ | ⟨cmd, words, e, rfl, hrefused⟩
    · exact nomatch heq.symm.trans h
    · rw [manager_options G htaken] at h
      cases hcmd : Command.ofToken cmd with
      | none =>
          rw [hcmd] at h
          cases h
      | some command =>
          rw [hcmd] at h
          cases h
          rw [Command.ofToken_eq_some_iff.1 hcmd]
          exact ⟨o, rfl, htaken, rfl⟩
    · exact nomatch (manager_refused G hrefused cmd environment).symm.trans h
  · rintro ⟨o, rfl, htaken, rfl⟩
    rw [manager_options G htaken, Command.ofToken_eq_some_iff.2 rfl]
    rfl
  · rcases manager_cases G args environment with ⟨_, heq⟩ |
      ⟨cmd, o, rfl, htaken⟩ | ⟨cmd, words, e, rfl, hrefused⟩
    · exact nomatch heq.symm.trans h
    · rw [manager_options G htaken] at h
      cases hcmd : Command.ofToken cmd with
      | none =>
          rw [hcmd] at h
          cases h
          exact ⟨hcmd, o, rfl, htaken⟩
      | some command =>
          rw [hcmd] at h
          cases h
    · exact nomatch (manager_refused G hrefused cmd environment).symm.trans h
  · rintro ⟨hcmd, o, rfl, htaken⟩
    rw [manager_options G htaken, hcmd]
    rfl
  · rcases manager_cases G args environment with ⟨hargs, heq⟩ |
      ⟨cmd, o, rfl, htaken⟩ | ⟨cmd, words, e', rfl, hrefused⟩
    · exact Or.inl ⟨hargs, (Dispatch.badOptions.inj (heq.symm.trans h)).symm⟩
    · rw [manager_options G htaken] at h
      cases hcmd : Command.ofToken cmd with
      | none =>
          rw [hcmd] at h
          cases h
      | some command =>
          rw [hcmd] at h
          cases h
    · have heq := manager_refused G hrefused cmd environment
      obtain rfl := Dispatch.badOptions.inj (heq.symm.trans h)
      obtain ⟨pairs, rest, rfl, hpairs, hrest⟩ := hrefused
      exact Or.inr ⟨cmd, pairs, rest, rfl, hpairs, hrest⟩
  · rintro (⟨rfl, rfl⟩ | ⟨cmd, pairs, rest, rfl, hpairs, hrefused⟩)
    · rfl
    · exact manager_refused G ⟨pairs, rest, rfl, hpairs, hrefused⟩ cmd
        environment

end Dispatch

end Bodhi
