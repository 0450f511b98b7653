/-
`parse_port_flag` against the form of `--port` that the help text and the error
message give: pairs of a host and a guest part with one colon between them,
separated by commas.
-/
import Bodhi.FlagsLastWins

namespace Bodhi

/-- Pathname expansion scans words for the characters `*`, `?` and `[`; it
leaves the others as they are. -/
structure PathnameExpansion extends Globbing where
  literal : ∀ word, (∀ c ∈ word, c ∉ ['*', '?', '[']) → expand word = [word]

/-- A character that the shell neither splits at nor expands. -/
def IsWordChar (c : Char) : Prop :=
  isBlank c = false ∧ c ∉ ['*', '?', '[']

instance (c : Char) : Decidable (IsWordChar c) :=
  inferInstanceAs (Decidable (_ ∧ _))

/-- A value of `--port` that is one word. -/
structure PortValue where
  text : Text
  nonempty : text ≠ []
  plain : ∀ c ∈ text, IsWordChar c

/-- A text is the list of some pairs; neither part of a pair is empty or has a
separator in it. -/
def IsPortList (pairs : List (Text × Text)) (text : Text) : Prop :=
  pairs ≠ [] ∧ text = portArgument pairs ∧
    ∀ pair ∈ pairs, (pair.1 ≠ [] ∧ ',' ∉ pair.1 ∧ ':' ∉ pair.1) ∧
      pair.2 ≠ [] ∧ ',' ∉ pair.2 ∧ ':' ∉ pair.2

def Documented (text : Text) : Prop :=
  ∃ pairs, IsPortList pairs text

section Property

variable (G : PathnameExpansion)

/-- Wherever the loop comes to the value on a command line, the options are
rejected with the message about the pairs. -/
def RejectsPort (text : Text) : Prop :=
  ∀ cmd before rest environment s,
    (∀ pair ∈ before, pair.2 ≠ []) →
    parseLoop G.toGlobbing (flagWords before)
      { setDefaulFlags environment with cmd := cmd } = .ok s →
    manager G.toGlobbing (cmd :: (flagWords before ++ Flag.port.token :: text :: rest))
      environment = .badOptions .portPairs

/-- A value is accepted if it has the documented form, HOST_FWD then has the
forward of each pair in order, and any other value is rejected. -/
def ParsesDocumented (value : PortValue) : Prop :=
  ((∃ fwd, parsePortFlag G.toGlobbing value.text = .ok fwd) ↔ Documented value.text) ∧
  (∀ fwd, parsePortFlag G.toGlobbing value.text = .ok fwd →
    ∃ pairs, IsPortList pairs value.text ∧
      fwd = pairs.flatMap fun pair => hostFwdRule pair.1 pair.2) ∧
  (¬ Documented value.text → RejectsPort G value.text)

end Property

/-- The parts of an element that are not empty. -/
def portParts (element : Text) : List Text :=
  fields (· == ':') element

/-- The value is no option of `echo`, and some text between its commas that is
not empty has fewer than two parts. -/
def LacksPart (text : Text) : Prop :=
  isEchoOption text = false ∧
    ∃ element ∈ fields (· == ',') text, (portParts element).length < 2

section Splitting

variable (G : PathnameExpansion)

theorem splitArray_echoOption {sep : Char} {arg : Text}
    (hecho : isEchoOption arg = true) : splitArray G.toGlobbing sep arg = [] := by
  have hecho' : echo arg = [] ∨ echo arg = ['\n'] := by
    rw [echo, if_pos hecho]
    split <;> simp
  have hwords : splitWords (tr sep ' ' (echo arg)) = [] := by
    rcases hecho' with h | h
    · rw [h]
      rfl
    · rw [h]
      by_cases hsep : '\n' = sep
      · rw [← hsep]
        rfl
      · rw [tr_of_not_mem (by simpa using fun h => hsep h.symm)]
        rfl
  rw [splitArray, splitWords_commandSubst, hwords]
  rfl

/-- Of a word that is no option of `echo` an array holds the fields between the
separators. -/
theorem splitArray_eq_fields {sep : Char} {arg : Text}
    (hplain : ∀ c ∈ arg, IsWordChar c) (hecho : isEchoOption arg = false) :
    splitArray G.toGlobbing sep arg = fields (· == sep) arg := by
  have hfields : fields isBlank (tr sep ' ' arg) = fields (· == sep) arg := by
    apply fields_map
    · intro c hc
      by_cases hsep : c = sep
      · rw [if_pos hsep, hsep, beq_self_eq_true]
        rfl
      · rw [if_neg hsep, (hplain c hc).1]
        exact (beq_eq_false_iff_ne.2 hsep).symm
    · intro c _ hsep
      rw [if_neg (by simpa using hsep)]
  have hline : splitWords (tr sep ' ' (echo arg)) = fields (· == sep) arg := by
    have hblank : isBlank (if '\n' = sep then ' ' else '\n') = true := by
      split <;> decide
    have hend := fields_append_sep isBlank (tr sep ' ' arg) [] hblank
    rw [fields_nil, List.append_nil, hfields] at hend
    rw [echo_of_not_option hecho, tr_append]
    exact hend
  have hexpand : (fields (· == sep) arg).flatMap G.expand =
      fields (· == sep) arg := by
    conv_rhs => rw [← List.flatMap_singleton' (fields (· == sep) arg)]
    apply List.flatMap_congr
    intro word hword
    exact G.literal word fun c hc =>
      (hplain c ((mem_fields hword).2 c hc).1).2
  rw [splitArray, splitWords_commandSubst, hline, hexpand]

end Splitting

section Elements

variable (G : PathnameExpansion)

/-- A part is missing in the array of an element exactly if the element has
fewer than two parts. -/
theorem element_lacks_iff {element : Text} (hne : element ≠ [])
    (hplain : ∀ c ∈ element, IsWordChar c) :
    ((splitArray G.toGlobbing ':' element).getD 0 [] = [] ∨
        (splitArray G.toGlobbing ':' element).getD 1 [] = []) ↔
      (portParts element).length < 2 := by
  by_cases hecho : isEchoOption element = true
  · have hcolon : ∀ c ∈ element, (c == ':') = false := by
      intro c hc
      rw [beq_eq_false_iff_ne]
      rintro rfl
      rw [colon_isEchoOption hc] at hecho
      cases hecho
    rw [splitArray_echoOption G hecho, portParts,
      fields_eq_singleton _ hne hcolon]
    simp
  · have hparts : splitArray G.toGlobbing ':' element = portParts element :=
      splitArray_eq_fields G hplain (by simpa using hecho)
    have hnonempty : ∀ part ∈ portParts element, part ≠ [] :=
      fun part hpart => (mem_fields hpart).1
    rw [hparts]
    match hsplit : portParts element with
    | [] => simp
    | [part] => simp
    | host :: guest :: rest =>
        have hhost := hnonempty host (by simp [hsplit])
        have hguest := hnonempty guest (by simp [hsplit])
        simp [hhost, hguest]

/-- The loop stops at the first element that lacks a part. -/
theorem parsePortElements_error_iff {elements : List Text}
    (h : ∀ element ∈ elements, element ≠ [] ∧ ∀ c ∈ element, IsWordChar c)
    (fwd : Text) :
    parsePortElements G.toGlobbing elements fwd = .error .portPairs ↔
      ∃ element ∈ elements, (portParts element).length < 2 := by
  induction elements generalizing fwd with
  | nil => simp [parsePortElements]
  | cons element rest ih =>
      obtain ⟨hne, hplain⟩ := h element List.mem_cons_self
      have hlacks := element_lacks_iff G hne hplain
      have hrest := fun fwd => ih
        (fun other hmem => h other (List.mem_cons_of_mem element hmem)) fwd
      by_cases hlack : (portParts element).length < 2
      · simp only [parsePortElements]
        rw [if_pos (hlacks.2 hlack), List.exists_mem_cons_iff]
        exact ⟨fun _ => Or.inl hlack, fun _ => rfl⟩
      · simp only [parsePortElements]
        rw [if_neg (mt hlacks.1 hlack), hrest, List.exists_mem_cons_iff,
          or_iff_right hlack]

/-- The loop has no other error. -/
theorem parsePortElements_ok_or_error (elements : List Text) (fwd : Text) :
    (∃ fwd', parsePortElements G.toGlobbing elements fwd = .ok fwd') ∨
      parsePortElements G.toGlobbing elements fwd = .error .portPairs := by
  induction elements generalizing fwd with
  | nil => exact Or.inl ⟨fwd, rfl⟩
  | cons element rest ih =>
      simp only [parsePortElements]
      split
      · exact Or.inr rfl
      · exact ih _

/-- The values that `parse_port_flag` rejects. -/
theorem parsePortFlag_error_iff (value : PortValue) :
    parsePortFlag G.toGlobbing value.text = .error .portPairs ↔ LacksPart value.text := by
  rw [parsePortFlag]
  by_cases hecho : isEchoOption value.text = true
  · rw [splitArray_echoOption G hecho, LacksPart, hecho]
    simp [parsePortElements]
  · rw [splitArray_eq_fields G value.plain (by simpa using hecho),
      parsePortElements_error_iff, LacksPart]
    · simp [hecho]
    · intro element hmem
      obtain ⟨hne, hchars⟩ := mem_fields hmem
      exact ⟨hne, fun c hc => value.plain c (hchars c hc).1⟩

/-- The pairs of a documented value come out as forwards. -/
theorem parsePortFlag_isPortList (value : PortValue)
    {pairs : List (Text × Text)} (h : IsPortList pairs value.text) :
    parsePortFlag G.toGlobbing value.text =
      .ok (pairs.flatMap fun pair => hostFwdRule pair.1 pair.2) := by
  have hplain := value.plain
  obtain ⟨hne, htext, hparts⟩ := h
  rw [htext] at hplain ⊢
  have helement : ∀ pair ∈ pairs,
      (pair.1 ++ ':' :: pair.2) ∈
        pairs.map fun pair => pair.1 ++ ':' :: pair.2 :=
    fun pair hmem => List.mem_map.2 ⟨pair, hmem, rfl⟩
  have hinside : ∀ pair ∈ pairs, ∀ c ∈ pair.1 ++ ':' :: pair.2,
      c ∈ portArgument pairs := fun pair hmem c hc =>
    (mem_intercalate_isInfix [','] (helement pair hmem)).subset hc
  have hcolon : ':' ∈ portArgument pairs := by
    obtain ⟨pair, hpair⟩ := List.exists_mem_of_ne_nil pairs hne
    exact hinside pair hpair ':' (by simp)
  have helements : splitArray G.toGlobbing ',' (portArgument pairs) =
      pairs.map fun pair => pair.1 ++ ':' :: pair.2 := by
    rw [splitArray_eq_fields G hplain (colon_isEchoOption hcolon)]
    apply fields_intercalate_words _ (by decide)
    · intro element hmem
      obtain ⟨pair, -, rfl⟩ := List.mem_map.1 hmem
      simp
    · intro element hmem c hc
      obtain ⟨pair, hpair, rfl⟩ := List.mem_map.1 hmem
      obtain ⟨⟨-, hhost, -⟩, -, hguest, -⟩ := hparts pair hpair
      rw [beq_eq_false_iff_ne]
      rintro rfl
      simp [hhost, hguest] at hc
  have hsplit : ∀ pair ∈ pairs,
      splitArray G.toGlobbing ':' (pair.1 ++ ':' :: pair.2) =
        [pair.1, pair.2] := by
    intro pair hpair
    obtain ⟨⟨hhost, -, hhost'⟩, hguest, -, hguest'⟩ := hparts pair hpair
    have hjoin : pair.1 ++ ':' :: pair.2 = [':'].intercalate [pair.1, pair.2] := by
      simp [List.intercalate_cons_cons]
    rw [splitArray_eq_fields G
      (fun c hc => hplain c (hinside pair hpair c hc))
      (colon_isEchoOption (by simp)), hjoin]
    apply fields_intercalate_words _ (by decide)
    · simp [hhost, hguest]
    · intro part hpart c hc
      rw [beq_eq_false_iff_ne]
      rintro rfl
      simp only [List.mem_cons, List.not_mem_nil, or_false] at hpart
      rcases hpart with rfl | rfl
      · exact hhost' hc
      · exact hguest' hc
  rw [parsePortFlag, helements, parsePortElements_parts G.toGlobbing hsplit,
    List.nil_append]
  exact fun pair hpair => ⟨(hparts pair hpair).1.1, (hparts pair hpair).2.1⟩

end Elements

section CommandLine

variable (G : PathnameExpansion)

/-- A value that `parse_port_flag` rejects ends the script. -/
theorem rejectsPort_of_error {text : Text}
    (h : parsePortFlag G.toGlobbing text = .error .portPairs) : RejectsPort G text := by
  intro cmd before rest environment s hne hbefore
  have hloop := parseLoop_append G.toGlobbing hne hbefore
    (Flag.port.token :: text :: rest)
  rw [manager, parseOptions, hloop]
  simp only [parseLoop, Flag.ofToken_token, setFlag, h]
  rfl

end CommandLine

/-- `--port` is parsed as documented exactly for the values that have the
documented form and those that lack a part. -/
theorem parsesDocumented_iff (G : PathnameExpansion) (value : PortValue) :
    ParsesDocumented G value ↔
      Documented value.text ∨ LacksPart value.text := by
  constructor
  · rintro ⟨haccepts, -, -⟩
    by_cases hform : Documented value.text
    · exact Or.inl hform
    · refine Or.inr ((parsePortFlag_error_iff G value).1 ?_)
      exact (parsePortElements_ok_or_error G _ _).resolve_left
        (mt haccepts.1 hform)
  · rintro (⟨pairs, hpairs⟩ | hlacks)
    · have hparse := parsePortFlag_isPortList G value hpairs
      refine ⟨⟨fun _ => ⟨pairs, hpairs⟩, fun _ => ⟨_, hparse⟩⟩, ?_,
        fun hnone => absurd ⟨pairs, hpairs⟩ hnone⟩
      intro fwd hfwd
      rw [hparse, Except.ok.injEq] at hfwd
      exact ⟨pairs, hpairs, hfwd.symm⟩
    · have herror := (parsePortFlag_error_iff G value).2 hlacks
      refine ⟨⟨?_, ?_⟩, ?_, fun _ => rejectsPort_of_error G herror⟩
      · rintro ⟨fwd, hfwd⟩
        rw [herror] at hfwd
        cases hfwd
      · rintro ⟨pairs, hpairs⟩
        rw [parsePortFlag_isPortList G value hpairs] at herror
        cases herror
      · intro fwd hfwd
        rw [herror] at hfwd
        cases hfwd

/-- A documented value has one colon more than it has commas. -/
theorem count_of_isPortList {pairs : List (Text × Text)} {text : Text}
    (h : IsPortList pairs text) : text.count ':' = text.count ',' + 1 := by
  obtain ⟨hne, rfl, hparts⟩ := h
  obtain ⟨pair, rest, rfl⟩ := List.exists_cons_of_ne_nil hne
  have helement : ∀ pair : Text × Text,
      (pair.1 ≠ [] ∧ ',' ∉ pair.1 ∧ ':' ∉ pair.1) ∧
        pair.2 ≠ [] ∧ ',' ∉ pair.2 ∧ ':' ∉ pair.2 →
      (pair.1 ++ ':' :: pair.2).count ':' = 1 ∧
        (pair.1 ++ ':' :: pair.2).count ',' = 0 := by
    rintro pair ⟨⟨-, hcomma, hcolon⟩, -, hcomma', hcolon'⟩
    simp [List.count_eq_zero_of_not_mem, hcomma, hcolon, hcomma', hcolon']
  induction rest generalizing pair with
  | nil =>
      obtain ⟨hcolon, hcomma⟩ := helement pair (hparts pair List.mem_cons_self)
      simp only [portArgument, List.map_cons, List.map_nil,
        List.intercalate_singleton]
      omega
  | cons next rest ih =>
      obtain ⟨hcolon, hcomma⟩ := helement pair (hparts pair List.mem_cons_self)
      have hrest := ih next (by simp) fun other hmem =>
        hparts other (List.mem_cons_of_mem pair hmem)
      have hsep : ([','] : Text).count ':' = 0 ∧ ([','] : Text).count ',' = 1 :=
        by decide
      simp only [portArgument, List.map_cons] at hrest ⊢
      rw [List.intercalate_cons_cons]
      simp only [List.count_append] at hcolon hcomma hrest ⊢
      omega

/-- A directory without files. -/
def noFiles : PathnameExpansion where
  toGlobbing := Globbing.unmatched
  literal _ _ := rfl

/-- An element with two colons. -/
def threePorts : PortValue where
  text := "9000:80:443".toList
  nonempty := by decide
  plain := by
    have hall : "9000:80:443".toList.all (IsWordChar ·) = true := by
      decide +kernel
    simpa using hall

/-- `9000:80:443` is accepted as a forward from 9000 to 80. -/
theorem not_parsesDocumented :
    ¬ ParsesDocumented noFiles threePorts := by
  intro h
  have haccepted : parsePortFlag noFiles.toGlobbing threePorts.text =
      .ok (hostFwdRule "9000".toList "80".toList) := by decide +kernel
  obtain ⟨pairs, hpairs⟩ := h.1.1 ⟨_, haccepted⟩
  exact absurd (count_of_isPortList hpairs) (by decide)

end Bodhi
