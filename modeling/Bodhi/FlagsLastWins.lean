/-
`parse_options` against a reference parser in which the last occurrence of a
flag decides.  Each flag owns a view of the settings; a branch of the case
statement writes its own view and no other, so a run of the loop is, view by
view, the run of the occurrences of one flag.
-/
import Bodhi.ManagerFlags

namespace Bodhi

/-- The variables that the branch of a flag may write. -/
def Flag.view : Flag → Settings → List Text
  | .img, s => [s.img]
  | .vid, s => [s.vid]
  | .interface, s => [s.ifMode, s.guestSshPort]
  | .iso, s => [s.iso]
  | .port, s => [s.hostFwd]
  | .pre, s => [s.pre]
  | .qcowPath, s => [s.qcowPath]

/-- The variables that no flag writes, together with the views, are the whole
of the settings. -/
theorem Settings.ext_views {s t : Settings} (hcmd : s.cmd = t.cmd)
    (hbridge : s.bridgeName = t.bridgeName)
    (hviews : ∀ flag : Flag, flag.view s = flag.view t) : s = t := by
  have himg := hviews .img
  have hvid := hviews .vid
  have hif := hviews .interface
  have hiso := hviews .iso
  have hport := hviews .port
  have hpre := hviews .pre
  have hqcow := hviews .qcowPath
  cases s
  cases t
  simp_all [Flag.view]

/-- An argument of `--port`: nothing, or pairs of a host and a guest part. -/
def portArgument (pairs : List (Text × Text)) : Text :=
  [','].intercalate (pairs.map fun pair => pair.1 ++ ':' :: pair.2)

/-- A part of a pair: no separator, blank or pattern character. -/
def PortPart (part : Text) : Prop :=
  PlainWord ':' part ∧ ',' ∉ part

/-- The values that the loop is meant to accept without an error message. -/
def Flag.Accepts : Flag → Text → Prop
  | .vid, value => vidInRange value = true
  | .port, value => ∃ pairs, value = portArgument pairs ∧
      ∀ pair ∈ pairs, PortPart pair.1 ∧ PortPart pair.2
  | _, _ => True

section PortList

variable (G : Globbing)

theorem colon_isEchoOption {arg : Text} (h : ':' ∈ arg) :
    isEchoOption arg = false :=
  isEchoOption_of_mem h (by decide)

theorem portPart_plain {part : Text} (h : PortPart part) (c : Char)
    (hc : c ∈ part) : isPlain ':' c = true ∧ c ≠ ',' :=
  ⟨h.1.2 c hc, fun heq => h.2 (heq ▸ hc)⟩

/-- Both parts of a pair are read back from the element that holds them. -/
theorem splitArray_pair {host guest : Text} (hhost : PortPart host)
    (hguest : PortPart guest) :
    splitArray G ':' (host ++ ':' :: guest) = [host, guest] := by
  have hjoin : host ++ ':' :: guest = [':'].intercalate [host, guest] := by
    simp [List.intercalate_cons_cons]
  rw [hjoin]
  apply splitArray_intercalate
  · intro word hword
    simp only [List.mem_cons, List.not_mem_nil, or_false] at hword
    rcases hword with rfl | rfl
    · exact hhost.1
    · exact hguest.1
  · rw [← hjoin]
    exact colon_isEchoOption (by simp)

theorem element_plain {host guest : Text} (hhost : PortPart host)
    (hguest : PortPart guest) : PlainWord ',' (host ++ ':' :: guest) := by
  refine ⟨by simp, fun c hc => ?_⟩
  have hpart : ∀ part, PortPart part → c ∈ part → isPlain ',' c = true := by
    intro part h hmem
    obtain ⟨hcolon, hcomma⟩ := portPart_plain h c hmem
    simp only [isPlain, Bool.and_eq_true, bne_iff_ne] at hcolon ⊢
    exact ⟨⟨hcomma, hcolon.1.2⟩, hcolon.2⟩
  simp only [List.mem_append, List.mem_cons] at hc
  rcases hc with hc | rfl | hc
  · exact hpart host hhost hc
  · decide
  · exact hpart guest hguest hc

/-- The elements of a list of pairs are read back. -/
theorem splitArray_portArgument {pairs : List (Text × Text)}
    (h : ∀ pair ∈ pairs, PortPart pair.1 ∧ PortPart pair.2) :
    splitArray G ',' (portArgument pairs) =
      pairs.map fun pair => pair.1 ++ ':' :: pair.2 := by
  apply splitArray_intercalate
  · intro word hword
    obtain ⟨pair, hpair, rfl⟩ := List.mem_map.1 hword
    exact element_plain (h pair hpair).1 (h pair hpair).2
  · cases pairs with
    | nil => rfl
    | cons pair rest =>
        apply colon_isEchoOption
        cases rest <;> simp [List.intercalate_cons_cons]

/-- Elements that are split into their two parts add one forward each. -/
theorem parsePortElements_parts {pairs : List (Text × Text)}
    (hsplit : ∀ pair ∈ pairs,
      splitArray G ':' (pair.1 ++ ':' :: pair.2) = [pair.1, pair.2])
    (hne : ∀ pair ∈ pairs, pair.1 ≠ [] ∧ pair.2 ≠ []) (fwd : Text) :
    parsePortElements G (pairs.map fun pair => pair.1 ++ ':' :: pair.2) fwd =
      .ok (fwd ++ pairs.flatMap fun pair => hostFwdRule pair.1 pair.2) := by
  induction pairs generalizing fwd with
  | nil => simp [parsePortElements]
  | cons pair rest ih =>
      obtain ⟨hhost, hguest⟩ := hne pair List.mem_cons_self
      have hrest := ih
        (fun other hmem => hsplit other (List.mem_cons_of_mem pair hmem))
        (fun other hmem => hne other (List.mem_cons_of_mem pair hmem))
      simp [parsePortElements, hsplit pair List.mem_cons_self, hhost, hguest,
        hrest]

/-- On a list of pairs HOST_FWD receives one forward per pair, in order. -/
theorem parsePortFlag_portArgument {pairs : List (Text × Text)}
    (h : ∀ pair ∈ pairs, PortPart pair.1 ∧ PortPart pair.2) :
    parsePortFlag G (portArgument pairs) =
      .ok (pairs.flatMap fun pair => hostFwdRule pair.1 pair.2) := by
  rw [parsePortFlag, splitArray_portArgument G h, parsePortElements_parts,
    List.nil_append]
  · exact fun pair hmem => splitArray_pair G (h pair hmem).1 (h pair hmem).2
  · exact fun pair hmem => ⟨(h pair hmem).1.1.1, (h pair hmem).2.1.1⟩

end PortList

section Loop

variable (G : Globbing)

theorem setFlag_ok {flag : Flag} {value : Text} (h : flag.Accepts value)
    (s : Settings) : ∃ s', setFlag G flag value s = .ok s' := by
  cases flag with
  | vid =>
      have hrange : vidInRange value = true := h
      exact ⟨{ s with vid := value }, by simp [setFlag, parseVidFlag, hrange]⟩
  | port =>
      obtain ⟨pairs, rfl, hpairs⟩ := h
      rw [setFlag, parsePortFlag_portArgument G hpairs]
      exact ⟨_, rfl⟩
  | _ => exact ⟨_, rfl⟩

/-- The settings after the branch of a flag; an error leaves them alone. -/
def writeFlag (flag : Flag) (value : Text) (s : Settings) : Settings :=
  (setFlag G flag value s).toOption.getD s

theorem setFlag_eq_writeFlag {flag : Flag} {value : Text}
    (h : flag.Accepts value) (s : Settings) :
    setFlag G flag value s = .ok (writeFlag G flag value s) := by
  obtain ⟨s', hs'⟩ := setFlag_ok G h s
  rw [writeFlag, hs']
  rfl

/-- A branch leaves the views of the other flags alone. -/
theorem view_writeFlag_other {flag other : Flag} (hne : flag ≠ other)
    (value : Text) (s : Settings) :
    other.view (writeFlag G flag value s) = other.view s := by
  rw [writeFlag]
  cases flag <;> cases other <;> first
    | exact absurd rfl hne
    | (simp only [setFlag, parseVidFlag, parseIfFlag]
       first
         | rfl
         | (split <;> rfl)
         | (cases parsePortFlag G value <;> rfl))

theorem writeFlag_cmd (flag : Flag) (value : Text) (s : Settings) :
    (writeFlag G flag value s).cmd = s.cmd := by
  rw [writeFlag]
  cases flag <;> simp only [setFlag, parseVidFlag, parseIfFlag] <;> first
    | rfl
    | (split <;> rfl)
    | (cases parsePortFlag G value <;> rfl)

theorem writeFlag_bridgeName (flag : Flag) (value : Text) (s : Settings) :
    (writeFlag G flag value s).bridgeName = s.bridgeName := by
  rw [writeFlag]
  cases flag <;> simp only [setFlag, parseVidFlag, parseIfFlag] <;> first
    | rfl
    | (split <;> rfl)
    | (cases parsePortFlag G value <;> rfl)

/-- What a branch leaves in its own view depends on that view alone. -/
theorem view_writeFlag_congr (flag : Flag) (value : Text) {s t : Settings}
    (h : flag.view s = flag.view t) :
    flag.view (writeFlag G flag value s) = flag.view (writeFlag G flag value t) := by
  unfold writeFlag
  cases flag <;> simp only [setFlag, parseVidFlag, parseIfFlag]
  case vid => split <;> first | rfl | exact h
  case port => cases parsePortFlag G value <;> first | rfl | exact h
  case interface =>
      simp only [Flag.view, List.cons.injEq] at h
      simp [Except.toOption, Flag.view, h.2.1]
  all_goals rfl

/-- An accepted value replaces the view, whatever was there, unless the flag
is `--if`. -/
theorem view_writeFlag_replace {flag : Flag} {value : Text}
    (h : flag.Accepts value) (hif : flag ≠ .interface) (s t : Settings) :
    flag.view (writeFlag G flag value s) = flag.view (writeFlag G flag value t) := by
  unfold writeFlag
  cases flag with
  | interface => exact absurd rfl hif
  | vid =>
      have hrange : vidInRange value = true := h
      simp [setFlag, parseVidFlag, hrange, Except.toOption, Flag.view]
  | port =>
      obtain ⟨pairs, rfl, hpairs⟩ := h
      rw [setFlag, setFlag, parsePortFlag_portArgument G hpairs]
      rfl
  | _ => rfl

/-- The effect of a list of flags and values, one branch after the other. -/
def settleFlags (pairs : List (Flag × Text)) (s : Settings) : Settings :=
  pairs.foldl (fun t pair => writeFlag G pair.1 pair.2 t) s

theorem settleFlags_cmd (pairs : List (Flag × Text)) (s : Settings) :
    (settleFlags G pairs s).cmd = s.cmd := by
  induction pairs generalizing s with
  | nil => rfl
  | cons pair rest ih => exact (ih _).trans (writeFlag_cmd G pair.1 pair.2 s)

theorem settleFlags_bridgeName (pairs : List (Flag × Text)) (s : Settings) :
    (settleFlags G pairs s).bridgeName = s.bridgeName := by
  induction pairs generalizing s with
  | nil => rfl
  | cons pair rest ih =>
      exact (ih _).trans (writeFlag_bridgeName G pair.1 pair.2 s)

/-- The occurrences of one flag, in order. -/
def occurrences (flag : Flag) (pairs : List (Flag × Text)) :
    List (Flag × Text) :=
  pairs.filter fun pair => pair.1 = flag

/-- The view of a flag is written by its own occurrences. -/
theorem view_settleFlags_occurrences (flag : Flag) (pairs : List (Flag × Text))
    {s t : Settings} (h : flag.view s = flag.view t) :
    flag.view (settleFlags G pairs s) =
      flag.view (settleFlags G (occurrences flag pairs) t) := by
  induction pairs generalizing s t with
  | nil => exact h
  | cons pair rest ih =>
      by_cases hown : pair.1 = flag
      · have hfilter : occurrences flag (pair :: rest) =
            pair :: occurrences flag rest := by
          simp [occurrences, hown]
        rw [hfilter]
        exact ih (hown ▸ view_writeFlag_congr G pair.1 pair.2 (hown ▸ h))
      · have hfilter : occurrences flag (pair :: rest) =
            occurrences flag rest := by
          simp [occurrences, hown]
        rw [hfilter]
        exact ih ((view_writeFlag_other G hown pair.2 s).trans h)

/-- Pairs that differ only in how the occurrences of different flags are
interleaved. -/
def SameByFlag (pairs pairs' : List (Flag × Text)) : Prop :=
  ∀ flag, occurrences flag pairs = occurrences flag pairs'

theorem settleFlags_congr {pairs pairs' : List (Flag × Text)}
    (h : SameByFlag pairs pairs') (s : Settings) :
    settleFlags G pairs s = settleFlags G pairs' s := by
  apply Settings.ext_views
  · rw [settleFlags_cmd, settleFlags_cmd]
  · rw [settleFlags_bridgeName, settleFlags_bridgeName]
  · intro flag
    rw [view_settleFlags_occurrences G flag pairs rfl,
      view_settleFlags_occurrences G flag pairs' rfl, h flag]

/-- The words on the command line after the command. -/
def flagWords (pairs : List (Flag × Text)) : List Text :=
  pairs.flatMap fun pair => [pair.1.token, pair.2]

/-- Non-empty accepted values: the loop ends without an error and has run the
branch of every pair. -/
theorem parseLoop_flagWords {pairs : List (Flag × Text)}
    (haccepts : ∀ pair ∈ pairs, pair.1.Accepts pair.2)
    (hne : ∀ pair ∈ pairs, pair.2 ≠ []) (s : Settings) :
    parseLoop G (flagWords pairs) s = .ok (settleFlags G pairs s) := by
  induction pairs generalizing s with
  | nil => rfl
  | cons pair rest ih =>
      have hset := setFlag_eq_writeFlag G (haccepts pair List.mem_cons_self) s
      have hvalue := hne pair List.mem_cons_self
      have hrest := ih
        (fun other hmem => haccepts other (List.mem_cons_of_mem _ hmem))
        (fun other hmem => hne other (List.mem_cons_of_mem _ hmem))
        (writeFlag G pair.1 pair.2 s)
      change parseLoop G (pair.1.token :: pair.2 :: flagWords rest) s = _
      simp only [parseLoop, Flag.ofToken_token, hset, hvalue, ↓reduceIte,
        hrest]
      rfl

/-- The loop goes on with the words behind flags that it takes. -/
theorem parseLoop_append {pairs : List (Flag × Text)}
    (hne : ∀ pair ∈ pairs, pair.2 ≠ []) {s s' : Settings}
    (h : parseLoop G (flagWords pairs) s = .ok s') (last : List Text) :
    parseLoop G (flagWords pairs ++ last) s = parseLoop G last s' := by
  induction pairs generalizing s with
  | nil =>
      obtain rfl : s = s' := by simpa [flagWords, parseLoop] using h
      rfl
  | cons pair rest ih =>
      have hvalue := hne pair List.mem_cons_self
      change parseLoop G (pair.1.token :: pair.2 :: flagWords rest) s = _ at h
      change parseLoop G
        (pair.1.token :: pair.2 :: (flagWords rest ++ last)) s = _
      simp only [parseLoop, Flag.ofToken_token, hvalue, ↓reduceIte] at h ⊢
      cases hset : setFlag G pair.1 pair.2 s with
      | error e =>
          rw [hset] at h
          cases h
      | ok next =>
          rw [hset] at h
          exact ih (fun other hmem => hne other (List.mem_cons_of_mem _ hmem)) h

/-- The loop stops at a token it does not know, and at an empty value, which
it reads as the next token. -/
theorem parseLoop_stops {pairs : List (Flag × Text)} {last : List Text}
    (h : (∃ pair ∈ pairs, pair.2 = []) ∨
      ∃ token more, last = token :: more ∧ Flag.ofToken token = none)
    (s : Settings) :
    ∃ e, parseLoop G (flagWords pairs ++ last) s = .error e := by
  induction pairs generalizing s with
  | nil =>
      obtain ⟨_, hmem, _⟩ | ⟨token, more, rfl, hunknown⟩ := h
      · simp at hmem
      · refine ⟨.unknownOption token, ?_⟩
        cases more <;> simp [flagWords, parseLoop, hunknown]
  | cons pair rest ih =>
      change ∃ e, parseLoop G
        (pair.1.token :: pair.2 :: (flagWords rest ++ last)) s = .error e
      simp only [parseLoop, Flag.ofToken_token]
      cases hset : setFlag G pair.1 pair.2 s with
      | error e => exact ⟨e, rfl⟩
      | ok s' =>
          by_cases hvalue : pair.2 = []
          · refine ⟨.unknownOption [], ?_⟩
            cases hrest : flagWords rest ++ last <;>
              simp [hvalue, parseLoop]
          · have hlater : (∃ other ∈ rest, other.2 = []) ∨
                ∃ token more, last = token :: more ∧
                  Flag.ofToken token = none := by
              rcases h with ⟨other, hmem, hempty⟩ | hunknown
              · rcases List.mem_cons.1 hmem with rfl | hmem
                · exact absurd hempty hvalue
                · exact Or.inl ⟨other, hmem, hempty⟩
              · exact Or.inr hunknown
            simpa [hvalue] using ih hlater s'

/-- The value that the last occurrence of a flag carries. -/
def lastValue (flag : Flag) (pairs : List (Flag × Text)) : Option Text :=
  (occurrences flag pairs).getLast?.map Prod.snd

/-- The settings that the last occurrence of a flag alone produces. -/
def lastAlone (flag : Flag) (pairs : List (Flag × Text)) (s : Settings) :
    Settings :=
  (lastValue flag pairs).elim s fun value => writeFlag G flag value s

/-- The reference parser: every flag's variables are what its last occurrence
alone makes of the defaults. -/
structure LastWins (pairs : List (Flag × Text)) (defaults s : Settings) :
    Prop where
  cmd : s.cmd = defaults.cmd
  bridgeName : s.bridgeName = defaults.bridgeName
  views : ∀ flag : Flag, flag.view s = flag.view (lastAlone G flag pairs defaults)

/-- The reference determines the settings. -/
theorem LastWins.unique {pairs : List (Flag × Text)}
    {defaults s t : Settings} (hs : LastWins G pairs defaults s)
    (ht : LastWins G pairs defaults t) : s = t :=
  Settings.ext_views (hs.cmd.trans ht.cmd.symm)
    (hs.bridgeName.trans ht.bridgeName.symm)
    fun flag => (hs.views flag).trans (ht.views flag).symm

theorem occurrences_own (flag : Flag) (pairs : List (Flag × Text)) :
    ∀ pair ∈ occurrences flag pairs, pair ∈ pairs ∧ pair.1 = flag := by
  intro pair hmem
  simpa [occurrences] using hmem

/-- Flags other than `--if` follow the reference parser. -/
theorem view_settleFlags_last {flag : Flag} (hif : flag ≠ .interface)
    {pairs : List (Flag × Text)}
    (haccepts : ∀ pair ∈ pairs, pair.1.Accepts pair.2) (s : Settings) :
    flag.view (settleFlags G pairs s) =
      flag.view (lastAlone G flag pairs s) := by
  rw [view_settleFlags_occurrences G flag pairs rfl, lastAlone, lastValue]
  rcases List.eq_nil_or_concat (occurrences flag pairs) with hnil | ⟨init, last, hlast⟩
  · rw [hnil]
    rfl
  · rw [List.concat_eq_append] at hlast
    have hmem : last ∈ occurrences flag pairs := by simp [hlast]
    obtain ⟨hpairs, rfl⟩ := occurrences_own flag pairs last hmem
    have hreplace := view_writeFlag_replace G (haccepts last hpairs) hif
      (settleFlags G init s) s
    simpa [hlast, settleFlags] using hreplace

/-- The port that the last `--if` with a port names. -/
def lastNamedPort (pairs : List (Flag × Text)) : Option Text :=
  ((occurrences .interface pairs).filterMap
    fun pair => sshPortOf G pair.2).getLast?

/-- If the last `--if` names no port, the last port that an earlier one named
is the default. -/
def PortKept (pairs : List (Flag × Text)) (defaults : Settings) : Prop :=
  ∀ value, lastValue .interface pairs = some value →
    sshPortOf G value = none →
    ∀ port, lastNamedPort G pairs = some port → port = defaults.guestSshPort

theorem writeFlag_interface (value : Text) (s : Settings) :
    writeFlag G .interface value s = parseIfFlag G value s := rfl

/-- GUEST_SSH_PORT keeps the last port named, also over later `--if`s. -/
theorem settleFlags_guestSshPort {occs : List (Flag × Text)}
    (hown : ∀ pair ∈ occs, pair.1 = .interface) (s : Settings) :
    (settleFlags G occs s).guestSshPort =
      ((occs.filterMap fun pair => sshPortOf G pair.2).getLast?).getD
        s.guestSshPort := by
  induction occs using List.reverseRecOn with
  | nil => rfl
  | append_singleton init last ih =>
      have hlast : last.1 = .interface := hown last (by simp)
      have hinit := ih fun pair hmem => hown pair (by simp [hmem])
      have hstep : settleFlags G (init ++ [last]) s =
          parseIfFlag G last.2 (settleFlags G init s) := by
        simp [settleFlags, hlast, writeFlag_interface]
      rw [hstep, parseIfFlag, hinit, List.filterMap_append]
      cases hport : sshPortOf G last.2 with
      | none => simp [hport]
      | some port => simp [hport]

/-- `--if` follows the reference parser exactly when the port is kept. -/
theorem view_settleFlags_interface_iff (pairs : List (Flag × Text))
    (s : Settings) :
    Flag.interface.view (settleFlags G pairs s) =
        Flag.interface.view (lastAlone G .interface pairs s) ↔
      PortKept G pairs s := by
  rw [view_settleFlags_occurrences G .interface pairs rfl]
  have hown : ∀ pair ∈ occurrences .interface pairs, pair.1 = .interface :=
    fun pair hmem => (occurrences_own .interface pairs pair hmem).2
  have hport := settleFlags_guestSshPort G hown s
  unfold PortKept lastNamedPort lastAlone lastValue
  rcases List.eq_nil_or_concat (occurrences .interface pairs) with
    hnil | ⟨init, last, hlast⟩
  · simp [hnil, settleFlags]
  · rw [List.concat_eq_append] at hlast
    have hmode : (settleFlags G (occurrences .interface pairs) s).ifMode =
        (splitArray G ',' last.2).getD 0 [] := by
      have : last.1 = .interface := hown last (by simp [hlast])
      simp [hlast, settleFlags, this, writeFlag_interface, parseIfFlag]
    simp only [Flag.view, hmode, hport, List.cons.injEq, and_true]
    simp only [hlast, List.getLast?_append, List.getLast?_singleton,
      Option.some_or, Option.map_some, Option.elim_some, writeFlag_interface,
      parseIfFlag, true_and, Option.some.injEq, forall_eq']
    cases hnamed : sshPortOf G last.2 with
    | some port => simp [hnamed]
    | none =>
        cases hearlier :
            (init.filterMap fun pair => sshPortOf G pair.2).getLast? <;>
          simp [hnamed, hearlier]

/-- What a command line owes to the reference parser: the loop ends without an
error in the settings of the reference, also when occurrences of different
flags trade places. -/
def RefinesLastWins (cmd : Text) (pairs : List (Flag × Text))
    (environment : Settings) : Prop :=
  ∃ s, parseOptions G (cmd :: flagWords pairs) (setDefaulFlags environment) =
      .ok s ∧
    LastWins G pairs { setDefaulFlags environment with cmd := cmd } s ∧
    ∀ pairs', SameByFlag pairs pairs' →
      parseOptions G (cmd :: flagWords pairs') (setDefaulFlags environment) =
        .ok s

theorem SameByFlag.mem {pairs pairs' : List (Flag × Text)}
    (h : SameByFlag pairs pairs') {pair : Flag × Text} (hmem : pair ∈ pairs') :
    pair ∈ pairs := by
  have hocc : pair ∈ occurrences pair.1 pairs' := by
    simpa [occurrences] using hmem
  rw [← h pair.1] at hocc
  exact (occurrences_own _ _ _ hocc).1

/-- With non-empty accepted values the outcome is the settled one, in every
interleaving of the flags. -/
theorem parseOptions_flagWords (cmd : Text) {pairs pairs' : List (Flag × Text)}
    (haccepts : ∀ pair ∈ pairs, pair.1.Accepts pair.2)
    (hne : ∀ pair ∈ pairs, pair.2 ≠ []) (hsame : SameByFlag pairs pairs')
    (s : Settings) :
    parseOptions G (cmd :: flagWords pairs') s =
      .ok (settleFlags G pairs { s with cmd := cmd }) := by
  rw [parseOptions, parseLoop_flagWords G
    (fun pair hmem => haccepts pair (hsame.mem hmem))
    (fun pair hmem => hne pair (hsame.mem hmem)), settleFlags_congr G hsame]

theorem settleFlags_lastWins_iff {pairs : List (Flag × Text)}
    (haccepts : ∀ pair ∈ pairs, pair.1.Accepts pair.2) (s : Settings) :
    LastWins G pairs s (settleFlags G pairs s) ↔ PortKept G pairs s := by
  constructor
  · exact fun h => (view_settleFlags_interface_iff G pairs s).1 (h.views _)
  · intro h
    refine ⟨settleFlags_cmd G pairs s, settleFlags_bridgeName G pairs s, ?_⟩
    intro flag
    by_cases hif : flag = .interface
    · exact hif ▸ (view_settleFlags_interface_iff G pairs s).2 h
    · exact view_settleFlags_last G hif haccepts s

/-- `parse_options` refines the reference parser on a command line of known
flags exactly when no value is empty and the port of `--if` is kept; a token
that is no flag where one is due is an error before any command is run. -/
theorem parseOptions_refines_lastWins_iff (cmd : Text)
    (environment : Settings) :
    (∀ pairs : List (Flag × Text),
      (∀ pair ∈ pairs, pair.1.Accepts pair.2) →
        (RefinesLastWins G cmd pairs environment ↔
          (∀ pair ∈ pairs, pair.2 ≠ []) ∧
            PortKept G pairs (setDefaulFlags environment))) ∧
    ∀ (pairs : List (Flag × Text)) (token : Text) (more : List Text),
      Flag.ofToken token = none →
        ∃ e, manager G (cmd :: flagWords pairs ++ token :: more) environment =
          .badOptions e := by
  constructor
  · intro pairs haccepts
    let start : Settings := { setDefaulFlags environment with cmd := cmd }
    have hport : PortKept G pairs start ↔
        PortKept G pairs (setDefaulFlags environment) := Iff.rfl
    constructor
    · rintro ⟨s, hs, hwins, _⟩
      have hne : ∀ pair ∈ pairs, pair.2 ≠ [] := by
        intro pair hmem hempty
        obtain ⟨e, he⟩ : ∃ e, parseLoop G (flagWords pairs ++ []) start =
            .error e :=
          parseLoop_stops G (Or.inl ⟨pair, hmem, hempty⟩) start
        rw [List.append_nil] at he
        rw [parseOptions, he] at hs
        cases hs
      rw [parseOptions_flagWords G cmd haccepts hne (fun _ => rfl)] at hs
      cases hs
      exact ⟨hne, hport.1 ((settleFlags_lastWins_iff G haccepts start).1 hwins)⟩
    · rintro ⟨hne, hkept⟩
      refine ⟨settleFlags G pairs start, ?_, ?_, ?_⟩
      · exact parseOptions_flagWords G cmd haccepts hne (fun _ => rfl) _
      · exact (settleFlags_lastWins_iff G haccepts start).2 (hport.2 hkept)
      · exact fun pairs' hsame =>
          parseOptions_flagWords G cmd haccepts hne hsame _
  · intro pairs token more hunknown
    obtain ⟨e, he⟩ : ∃ e, parseLoop G (flagWords pairs ++ token :: more)
        { setDefaulFlags environment with cmd := cmd } = .error e :=
      parseLoop_stops G (Or.inr ⟨token, more, rfl, hunknown⟩) _
    refine ⟨e, ?_⟩
    rw [manager, List.cons_append, parseOptions, he]

/-- An environment in which no variable of the script is set. -/
def bareEnvironment : Settings :=
  ⟨[], [], [], [], [], [], [], [], [], []⟩

/-- `start --if ssh,9000 --port 9001:443 --if ssh,9100` meets the reference,
and `start --img a.qcow2 stop` stops at its last word. -/
theorem parseOptions_refines_lastWins_start :
    (RefinesLastWins Globbing.unmatched "start".toList
      [(.interface, "ssh,9000".toList), (.port, "9001:443".toList),
        (.interface, "ssh,9100".toList)] bareEnvironment) ∧
    ∃ e, manager Globbing.unmatched
      ("start".toList :: flagWords [(.img, "a.qcow2".toList)] ++
        ["stop".toList]) bareEnvironment = .badOptions e := by
  have hmain := parseOptions_refines_lastWins_iff Globbing.unmatched
    "start".toList bareEnvironment
  refine ⟨(hmain.1 _ ?_).2 ⟨by decide, ?_⟩, hmain.2 _ _ _ (by decide)⟩
  · intro pair hmem
    simp only [List.mem_cons, List.not_mem_nil, or_false] at hmem
    rcases hmem with rfl | rfl | rfl
    · trivial
    · refine ⟨[("9001".toList, "443".toList)], by decide, ?_⟩
      intro pair hpair
      simp only [List.mem_cons, List.not_mem_nil, or_false] at hpair
      subst hpair
      exact ⟨⟨⟨by decide, List.all_eq_true.1 (by decide)⟩, by decide⟩,
        ⟨⟨by decide, List.all_eq_true.1 (by decide)⟩, by decide⟩⟩
    · trivial
  · intro value hvalue hnone
    have hlast : value = "ssh,9100".toList := by
      have : some "ssh,9100".toList = some value := hvalue
      exact (Option.some.inj this).symm
    subst hlast
    exact absurd hnone (by decide)

/-- `start --if ssh,9000 --if ssh` keeps port 9000, where the last `--if`
alone leaves 9001; `start --img ""` is rejected. -/
theorem parseOptions_not_lastWins :
    (∀ pair ∈ [(Flag.interface, "ssh,9000".toList),
          (.interface, "ssh".toList), (.img, [])], pair.1.Accepts pair.2) ∧
      ¬ RefinesLastWins Globbing.unmatched "start".toList
        [(.interface, "ssh,9000".toList), (.interface, "ssh".toList)]
        bareEnvironment ∧
      ¬ RefinesLastWins Globbing.unmatched "start".toList
        [(.img, [])] bareEnvironment := by
  refine ⟨?_, ?_, ?_⟩
  · intro pair hmem
    simp only [List.mem_cons, List.not_mem_nil, or_false] at hmem
    rcases hmem with rfl | rfl | rfl <;> trivial
  · rintro ⟨s, hs, hwins, _⟩
    have hport : s.guestSshPort = "9000".toList := by
      cases hs
      decide
    have hview := hwins.views .interface
    simp only [Flag.view, hport, List.cons.injEq] at hview
    exact absurd hview.2.1 (by decide)
  · rintro ⟨s, hs, _, _⟩
    cases hs

end Loop

end Bodhi
