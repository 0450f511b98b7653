/-
One invocation of groqai.sh after the other: the requests, the four guards on
the answers, and the session file as a log of the summaries.  A program that an
argument is too long for is not started, and the script goes on without its
output.
-/
import Bodhi.Jq
import Bodhi.RunInvariant

namespace Bodhi

def errorKey : Text := "error".toList
def messageKey : Text := "message".toList
def messagesKey : Text := "messages".toList
def choicesKey : Text := "choices".toList
def modelKey : Text := "model".toList

def modelName : Text := "llama-3.3-70b-versatile".toList

def summaryPrompt : Text :=
  "Summarize the following into a single compact paragraph for conversation memory:\n\n".toList

section Arguments

/-- MAX_ARG_STRLEN of the kernel, the zero behind an argument included. -/
def maxArgStrlen : Nat := 131072

/-- A program can be started with the text as an argument. -/
def FitsArgument (text : Text) : Prop :=
  (utf8 text).length < maxArgStrlen

instance (text : Text) : Decidable (FitsArgument text) :=
  inferInstanceAs (Decidable (_ < _))

/-- The output of a program with these arguments; there is none where the
kernel refuses to start it. -/
def outputWith (args : List Text) (output : Text) : Text :=
  if ∀ arg ∈ args, FitsArgument arg then output else []

end Arguments

section Filters

/-- `.key`; an error on values other than objects and null. -/
def field (key : Text) : Json → Option Json
  | .obj fields => some ((fields.lookup key).getD .null)
  | .null => some .null
  | _ => none

/-- `.[0]`. -/
def firstItem : Json → Option Json
  | .arr items => some (items.head?.getD .null)
  | .null => some .null
  | _ => none

/-- `... // empty`: errors, null and false give nothing. -/
def orEmpty : Option Json → Option Json
  | some .null => none
  | some (.bool false) => none
  | result => result

/-- `.error.message // empty`. -/
def errorMessage (response : Json) : Option Json :=
  orEmpty (field errorKey response >>= field messageKey)

/-- `.choices[0].message.content // empty`. -/
def choiceContent (response : Json) : Option Json :=
  orEmpty (field choicesKey response >>= firstItem >>= field messageKey >>=
    field contentKey)

/-- `{messages: ..., model: ...}`. -/
def requestBody (messages : List Json) : Json :=
  .obj [(messagesKey, .arr messages), (modelKey, .str modelName)]

end Filters

/-- A call of the script and what the API answers to its two requests, where
they are sent. -/
structure Invocation where
  content : Text
  content_nonempty : content ≠ []
  answer : Text
  summaryAnswer : Text

/-- How an invocation ends: with one of its two error exits, or at its end with
the summary it obtained, which may be empty. -/
inductive GroqExit where
  | apiError (message : Text)
  | noContent
  | finished (choices summary : Text)

/-- What an invocation sends and leaves behind. -/
structure GroqResult where
  request : Option Text
  summaryRequest : Option Text
  result : GroqExit
  sessionFile : Text

namespace GroqExit

/-- One of the two error exits. -/
def Fails : GroqExit → Prop
  | apiError _ => True
  | noContent => True
  | finished _ _ => False

end GroqExit

section Invoke

variable (jq : Jq)

/-- The output of `jq -r`: strings as they are. -/
def rawText : Json → Text
  | .str value => value
  | value => jq.print value

/-- `$(echo "$response" | jq -r filter)`. -/
def extract (filter : Json → Option Json) (response : Text) : Text :=
  commandSubst (unlines
    (((jq.read (echo response)).filterMap filter).map (rawText jq)))

/-- The variable JSON_DATA; a context that is no JSON value, or that no array
can be added to, is an error of `jq`. -/
def jsonData (context content : Text) : Text :=
  commandSubst (outputWith [content, context]
    (match (jq.readArg context).bind (appendMessage content) with
    | some (.arr messages) => jq.output [requestBody messages]
    | _ => []))

/-- The variable SUMMARY_JSON. -/
def summaryJson (choices : Text) : Text :=
  commandSubst (outputWith [choices]
    (jq.output [requestBody [message (summaryPrompt ++ choices)]]))

/-- `$(curl ... -d "$data")`. -/
def curl (data answer : Text) : Text :=
  commandSubst (outputWith [data] answer)

/-- The data of the request, if `curl` can be started with it. -/
def sent (data : Text) : Option Text :=
  if FitsArgument data then some data else none

/-- The variable UPDATED_CONTEXT. -/
def updatedContext (summary session : Text) : Text :=
  outputWith [summary] (jq.updatedContext summary session)

/-- How the answers let the invocation end. -/
def groqExit (data : Text) (invocation : Invocation) : GroqExit :=
  let response := curl data invocation.answer
  let errorMsg := extract jq errorMessage response
  let choices := extract jq choiceContent response
  let summaryResponse := curl (summaryJson jq choices) invocation.summaryAnswer
  if errorMsg ≠ [] then .apiError errorMsg
  else if choices = [] then .noContent
  else .finished choices (extract jq choiceContent summaryResponse)

/-- One run of the script on a session file that may be absent. -/
def groqai (file : Option Text) (invocation : Invocation) : GroqResult :=
  let session := file.getD Jq.emptySession
  let context := commandSubst session
  let data := jsonData jq context invocation.content
  let result := groqExit jq data invocation
  { request := sent data
    summaryRequest :=
      match result with
      | .finished choices _ => sent (summaryJson jq choices)
      | _ => none
    result := result
    sessionFile :=
      match result with
      | .finished _ summary =>
          if summary ≠ [] then echo (updatedContext jq summary session)
          else session
      | _ => session }

def groqMachine : Machine (Option Text) Invocation where
  next file invocation := some (groqai jq file invocation).sessionFile

end Invoke

section Answers

/-- A step into a JSON value. -/
inductive JsonStep where
  | key (name : Text)
  | first

/-- The value at a place of a JSON value. -/
inductive At : List JsonStep → Json → Json → Prop
  | here (value : Json) : At [] value value
  | key {name : Text} {path : List JsonStep} {fields : List (Text × Json)}
      {inner value : Json} (hfield : fields.lookup name = some inner)
      (hinner : At path inner value) :
      At (.key name :: path) (.obj fields) value
  | first {path : List JsonStep} {inner value : Json} {rest : List Json}
      (hinner : At path inner value) :
      At (.first :: path) (.arr (inner :: rest)) value

/-- Null and false say nothing. -/
def Speaks (value : Json) : Prop :=
  value ≠ .null ∧ value ≠ .bool false

/-- Strings are taken as they are, other values as they are printed. -/
inductive Spells (jq : Jq) : Json → Text → Prop
  | str (text : Text) : Spells jq (.str text) text
  | other {value : Json} (h : ∀ text, value ≠ .str text) :
      Spells jq value (jq.print value)

/-- What some values say at a place, one after the other. -/
inductive Picks (jq : Jq) (path : List JsonStep) : List Json → List Text → Prop
  | nil : Picks jq path [] []
  | take {value inner : Json} {text : Text} {values : List Json}
      {texts : List Text} (hat : At path value inner) (hspeaks : Speaks inner)
      (hspells : Spells jq inner text) (hrest : Picks jq path values texts) :
      Picks jq path (value :: values) (text :: texts)
  | skip {value : Json} {values : List Json} {texts : List Text}
      (hsilent : ∀ inner, At path value inner → ¬ Speaks inner)
      (hrest : Picks jq path values texts) :
      Picks jq path (value :: values) texts

/-- The text that an answer says at a place; line ends at its end do not
count. -/
def Says (jq : Jq) (path : List JsonStep) (answer text : Text) : Prop :=
  ∃ texts, Picks jq path (jq.read (echo (commandSubst answer))) texts ∧
    text = commandSubst (unlines texts)

def errorPath : List JsonStep := [.key errorKey, .key messageKey]

def contentPath : List JsonStep :=
  [.key choicesKey, .first, .key messageKey, .key contentKey]

/-- The request for the summary of a text. -/
def summaryRequest (jq : Jq) (text : Text) : Text :=
  if FitsArgument text then
    jq.print (requestBody [message (summaryPrompt ++ text)])
  else []

/-- The answers of the API give a summary: the first one says no error and some
content, so that a summary is asked for, and the second one says it. -/
structure GivesSummary (jq : Jq) (invocation : Invocation) (summary : Text) :
    Prop where
  no_error : Says jq errorPath invocation.answer []
  asked : ∃ content, content ≠ [] ∧ Says jq contentPath invocation.answer
    content ∧ FitsArgument (summaryRequest jq content)
  tells : Says jq contentPath invocation.summaryAnswer summary
  nonempty : summary ≠ []

/-- The summaries that some invocations obtain, in order. -/
inductive Obtained (jq : Jq) : List Invocation → List Text → Prop
  | nil : Obtained jq [] []
  | take {invocations : List Invocation} {summaries : List Text}
      {invocation : Invocation} {summary : Text}
      (hearlier : Obtained jq invocations summaries)
      (hgives : GivesSummary jq invocation summary) :
      Obtained jq (invocations ++ [invocation]) (summaries ++ [summary])
  | skip {invocations : List Invocation} {summaries : List Text}
      {invocation : Invocation}
      (hearlier : Obtained jq invocations summaries)
      (hnothing : ∀ summary, ¬ GivesSummary jq invocation summary) :
      Obtained jq (invocations ++ [invocation]) summaries

/-- What is sent and kept at one moment of a run: the file holds the log, the
next request carries the log and then the query, and an invocation that fails
or obtains nothing leaves the file as it is. -/
structure KeepsAt (jq : Jq) (file : Option Text) (log : List Json)
    (next : Option Invocation) : Prop where
  stores : jq.Stores file log
  carries : ∀ invocation ∈ next, ∃ data,
    (groqai jq file invocation).request = some data ∧
      jq.read data = [requestBody (log ++ [message invocation.content])]
  leaves : ∀ invocation ∈ next,
    ((groqai jq file invocation).result.Fails ∨
      ∀ summary, ¬ GivesSummary jq invocation summary) →
    (groqai jq file invocation).sessionFile = file.getD Jq.emptySession

/-- The session is an append-only log at every moment of a run from an absent
file. -/
def KeepsLog (jq : Jq) (invocations : List Invocation) : Prop :=
  ∀ first last, invocations = first ++ last →
    ∃ summaries, Obtained jq first summaries ∧
      KeepsAt jq ((groqMachine jq).after none first) (summaries.map message)
        last.head? ∧
      (first ≠ [] → (groqMachine jq).after none first ≠ none)

/-- Everything that an invocation on a log gives a program as one argument is
short enough for it. -/
structure Passes (jq : Jq) (log : List Json) (invocation : Invocation) :
    Prop where
  query : FitsArgument invocation.content
  context : FitsArgument (jq.print (.arr log))
  body : FitsArgument
    (jq.print (requestBody (log ++ [message invocation.content])))
  summary : ∀ summary, GivesSummary jq invocation summary → FitsArgument summary

/-- Every invocation of a run passes, on the log of the summaries before it. -/
def AllPass (jq : Jq) (invocations : List Invocation) : Prop :=
  ∀ first invocation last summaries,
    invocations = first ++ invocation :: last → Obtained jq first summaries →
      Passes jq (summaries.map message) invocation

end Answers

/-- `jq` that finds no value where there is none. -/
structure SilentJq extends Jq where
  read_nil : read [] = []
  read_newline : read ['\n'] = []

/-- The JSON texts of this development hold no value in an empty line. -/
def plainSilentJq : SilentJq where
  toJq := plainJq
  read_nil := rfl
  read_newline := rfl

section Reading

variable {jq : Jq}

theorem orEmpty_eq_some {result : Option Json} {value : Json} :
    orEmpty result = some value ↔ result = some value ∧ Speaks value := by
  unfold orEmpty Speaks
  split
  · constructor
    · simp
    · rintro ⟨hnull, hspeaks, _⟩
      exact absurd (Option.some.inj hnull).symm hspeaks
  · constructor
    · simp
    · rintro ⟨hfalse, _, hspeaks⟩
      exact absurd (Option.some.inj hfalse).symm hspeaks
  · rename_i hnull hfalse
    constructor
    · rintro rfl
      exact ⟨rfl, fun h => hnull (congrArg some h),
        fun h => hfalse (congrArg some h)⟩
    · exact And.left

/-- What `jq` makes of a step. -/
def JsonStep.follow : JsonStep → Json → Option Json
  | .key name => field name
  | .first => firstItem

/-- What `jq` makes of a path. -/
def walk : List JsonStep → Json → Option Json
  | [], value => some value
  | step :: path, value => step.follow value >>= walk path

theorem walk_null (path : List JsonStep) : walk path .null = some .null := by
  induction path with
  | nil => rfl
  | cons step path ih =>
      cases step with
      | key name => exact ih
      | first => exact ih

theorem not_speaks_null : ¬ Speaks .null := fun h => h.1 rfl

/-- A missing field or item is null, and says nothing. -/
theorem walk_getD (path : List JsonStep) (found : Option Json) (value : Json) :
    walk path (found.getD .null) = some value ∧ Speaks value ↔
      ∃ inner, found = some inner ∧ walk path inner = some value ∧
        Speaks value := by
  cases found with
  | none =>
      rw [Option.getD_none, walk_null]
      constructor
      · rintro ⟨hnull, hspeaks⟩
        cases hnull
        exact absurd hspeaks not_speaks_null
      · rintro ⟨inner, hinner, _⟩
        cases hinner
  | some inner => simp

theorem walk_iff (path : List JsonStep) (value inner : Json) :
    walk path value = some inner ∧ Speaks inner ↔
      At path value inner ∧ Speaks inner := by
  induction path generalizing value with
  | nil =>
      constructor
      · rintro ⟨hwalk, hspeaks⟩
        cases hwalk
        exact ⟨.here inner, hspeaks⟩
      · rintro ⟨hat, hspeaks⟩
        cases hat
        exact ⟨rfl, hspeaks⟩
  | cons step path ih =>
      constructor
      · rintro ⟨hwalk, hspeaks⟩
        obtain ⟨next, hnext, hrest⟩ := Option.bind_eq_some_iff.1 hwalk
        cases step with
        | key name =>
            cases value with
            | obj fields =>
                obtain rfl := Option.some.inj hnext
                obtain ⟨found, hfound, htail⟩ :=
                  (walk_getD path _ inner).1 ⟨hrest, hspeaks⟩
                obtain ⟨hat, _⟩ := (ih found).1 htail
                exact ⟨.key hfound hat, hspeaks⟩
            | null =>
                obtain rfl := Option.some.inj hnext
                rw [walk_null] at hrest
                obtain rfl := Option.some.inj hrest
                exact absurd hspeaks not_speaks_null
            | _ => cases hnext
        | first =>
            cases value with
            | arr items =>
                obtain rfl := Option.some.inj hnext
                obtain ⟨found, hfound, htail⟩ :=
                  (walk_getD path _ inner).1 ⟨hrest, hspeaks⟩
                obtain ⟨hat, _⟩ := (ih found).1 htail
                obtain ⟨rest, rfl⟩ := List.head?_eq_some_iff.1 hfound
                exact ⟨.first hat, hspeaks⟩
            | null =>
                obtain rfl := Option.some.inj hnext
                rw [walk_null] at hrest
                obtain rfl := Option.some.inj hrest
                exact absurd hspeaks not_speaks_null
            | _ => cases hnext
      · rintro ⟨hat, hspeaks⟩
        cases hat with
        | key hfield hinner =>
            have htail := (ih _).2 ⟨hinner, hspeaks⟩
            refine ⟨?_, hspeaks⟩
            simpa [walk, JsonStep.follow, field, hfield] using htail.1
        | first hinner =>
            have htail := (ih _).2 ⟨hinner, hspeaks⟩
            exact ⟨htail.1, hspeaks⟩

/-- A filter of the script gives what stands at a place and says something. -/
def FiltersAt (path : List JsonStep) (filter : Json → Option Json) : Prop :=
  ∀ value inner, filter value = some inner ↔
    At path value inner ∧ Speaks inner

theorem filtersAt_errorMessage : FiltersAt errorPath errorMessage := by
  intro value inner
  have hwalk : errorMessage value = orEmpty (walk errorPath value) := by
    simp [errorMessage, errorPath, walk, JsonStep.follow]
  rw [hwalk, orEmpty_eq_some, walk_iff]

theorem filtersAt_choiceContent : FiltersAt contentPath choiceContent := by
  intro value inner
  have hwalk : choiceContent value = orEmpty (walk contentPath value) := by
    simp [choiceContent, contentPath, walk, JsonStep.follow,
      Option.bind_assoc]
  rw [hwalk, orEmpty_eq_some, walk_iff]

theorem spells_iff (value : Json) (text : Text) :
    Spells jq value text ↔ text = rawText jq value := by
  constructor
  · intro h
    cases h with
    | str => rfl
    | other hno =>
        cases value with
        | str text => exact absurd rfl (hno text)
        | _ => rfl
  · rintro rfl
    cases value with
    | str text => exact .str text
    | _ => exact .other (fun text h => by cases h)

theorem picks_iff {path : List JsonStep} {filter : Json → Option Json}
    (hfilter : FiltersAt path filter) (values : List Json)
    (texts : List Text) :
    Picks jq path values texts ↔
      texts = (values.filterMap filter).map (rawText jq) := by
  constructor
  · intro h
    induction h with
    | nil => rfl
    | take hat hspeaks hspells _ ih =>
        rw [List.filterMap_cons_some ((hfilter _ _).2 ⟨hat, hspeaks⟩),
          List.map_cons, ← ih, (spells_iff _ _).1 hspells]
    | @skip value values texts hsilent hrest ih =>
        have hnone : filter value = none := by
          rw [Option.eq_none_iff_forall_ne_some]
          intro inner hinner
          obtain ⟨hat, hspeaks⟩ := (hfilter _ _).1 hinner
          exact hsilent inner hat hspeaks
        rw [List.filterMap_cons_none hnone, ih]
  · rintro rfl
    induction values with
    | nil => exact .nil
    | cons value values ih =>
        cases hvalue : filter value with
        | none =>
            rw [List.filterMap_cons_none hvalue]
            refine .skip (fun inner hat hspeaks => ?_) ih
            rw [(hfilter value inner).2 ⟨hat, hspeaks⟩] at hvalue
            cases hvalue
        | some inner =>
            rw [List.filterMap_cons_some hvalue, List.map_cons]
            obtain ⟨hat, hspeaks⟩ := (hfilter value inner).1 hvalue
            exact .take hat hspeaks ((spells_iff _ _).2 rfl) ih

/-- A variable of the script holds what the answer says. -/
theorem says_iff {path : List JsonStep} {filter : Json → Option Json}
    (hfilter : FiltersAt path filter) (answer text : Text) :
    Says jq path answer text ↔
      text = extract jq filter (commandSubst answer) := by
  simp only [Says, picks_iff hfilter, extract, exists_eq_left]

theorem valid_requestBody {items : List Json} (h : jq.Valid (.arr items)) :
    jq.Valid (requestBody items) := by
  apply jq.valid_obj (by simp only [List.map_cons, List.map_nil]; decide)
  intro field hfield
  simp only [List.mem_cons, List.not_mem_nil, or_false] at hfield
  rcases hfield with rfl | rfl
  · exact h
  · exact jq.valid_str modelName

theorem outputWith_single (arg output : Text) :
    outputWith [arg] output = if FitsArgument arg then output else [] := by
  simp [outputWith]

theorem summaryJson_eq (choices : Text) :
    summaryJson jq choices = summaryRequest jq choices := by
  have hmessages : jq.Valid (.arr [message (summaryPrompt ++ choices)]) := by
    rw [jq.valid_arr]
    intro item hitem
    rw [List.mem_singleton.1 hitem]
    exact Jq.valid_message _
  rw [summaryJson, summaryRequest, outputWith_single]
  split
  · exact Jq.commandSubst_output (valid_requestBody hmessages)
  · rfl

end Reading

section Exit

variable {jq : SilentJq}

/-- An answer that never came says nothing. -/
theorem extract_nil (filter : Json → Option Json) :
    extract jq.toJq filter [] = [] := by
  have hecho : echo ([] : Text) = ['\n'] := rfl
  rw [extract, hecho, jq.read_newline]
  rfl

/-- The response to a request that could be sent. -/
theorem curl_of_fits {data : Text} (hdata : FitsArgument data)
    (answer : Text) : curl data answer = commandSubst answer := by
  rw [curl, outputWith_single, if_pos hdata]

/-- The script exits with an error exactly when the answer to its request says
one, or says no content. -/
theorem groqExit_fails_iff {data : Text} (hdata : FitsArgument data)
    (invocation : Invocation) :
    (groqExit jq.toJq data invocation).Fails ↔
      ¬ Says jq.toJq errorPath invocation.answer [] ∨
        Says jq.toJq contentPath invocation.answer [] := by
  rw [says_iff filtersAt_errorMessage, says_iff filtersAt_choiceContent,
    groqExit, curl_of_fits hdata]
  split
  · rename_i herror
    exact ⟨fun _ => .inl (Ne.symm herror), fun _ => trivial⟩
  · rename_i hno
    split
    · rename_i hempty
      exact ⟨fun _ => .inr hempty.symm, fun _ => trivial⟩
    · rename_i hne
      refine ⟨False.elim, ?_⟩
      rintro (herror | hempty)
      · exact absurd (not_not.1 hno).symm herror
      · exact hne hempty.symm

/-- The script obtains the summary that the answers of the API give. -/
theorem givesSummary_iff {data : Text} (hdata : FitsArgument data)
    (invocation : Invocation) (summary : Text) :
    GivesSummary jq.toJq invocation summary ↔ summary ≠ [] ∧
      ∃ choices, groqExit jq.toJq data invocation =
        .finished choices summary := by
  have hcurl : ∀ request, curl request invocation.summaryAnswer =
      if FitsArgument request then commandSubst invocation.summaryAnswer
      else [] := by
    intro request
    rw [curl, outputWith_single]
    split <;> rfl
  rw [groqExit, curl_of_fits hdata]
  constructor
  · rintro ⟨hno, ⟨content, hne, hcontent, hfits⟩, htells, hnonempty⟩
    rw [says_iff filtersAt_errorMessage] at hno
    rw [says_iff filtersAt_choiceContent] at hcontent htells
    rw [hcontent] at hne hfits
    refine ⟨hnonempty, extract jq.toJq choiceContent
      (commandSubst invocation.answer), ?_⟩
    rw [if_neg (not_not.2 hno.symm), if_neg hne, summaryJson_eq, hcurl,
      if_pos hfits, ← htells]
  · rintro ⟨hnonempty, choices, hexit⟩
    split at hexit
    · cases hexit
    · rename_i hno
      split at hexit
      · cases hexit
      · rename_i hne
        obtain ⟨rfl, hsummary⟩ := GroqExit.finished.inj hexit
        rw [summaryJson_eq, hcurl] at hsummary
        split at hsummary
        · rename_i hfits
          exact
            { no_error := (says_iff filtersAt_errorMessage _ _).2
                (not_not.1 hno).symm
              asked := ⟨_, hne, (says_iff filtersAt_choiceContent _ _).2 rfl,
                hfits⟩
              tells := (says_iff filtersAt_choiceContent _ _).2 hsummary.symm
              nonempty := hnonempty }
        · rw [extract_nil] at hsummary
          exact absurd hsummary.symm hnonempty

theorem givesSummary_unique {invocation : Invocation} {first last : Text}
    (hfirst : GivesSummary jq.toJq invocation first)
    (hlast : GivesSummary jq.toJq invocation last) : first = last := by
  rw [(says_iff filtersAt_choiceContent _ _).1 hfirst.tells,
    (says_iff filtersAt_choiceContent _ _).1 hlast.tells]

theorem obtained_exists (jq : SilentJq) (invocations : List Invocation) :
    ∃ summaries, Obtained jq.toJq invocations summaries := by
  induction invocations using List.reverseRecOn with
  | nil => exact ⟨[], .nil⟩
  | append_singleton invocations invocation ih =>
      obtain ⟨summaries, hsummaries⟩ := ih
      by_cases hsome : ∃ summary, GivesSummary jq.toJq invocation summary
      · obtain ⟨summary, hsummary⟩ := hsome
        exact ⟨_, hsummaries.take hsummary⟩
      · exact ⟨_, hsummaries.skip (not_exists.1 hsome)⟩

theorem obtained_nil {summaries : List Text}
    (h : Obtained jq.toJq [] summaries) : summaries = [] := by
  generalize hnil : ([] : List Invocation) = invocations at h
  cases h with
  | nil => rfl
  | take _ _ => simp at hnil
  | skip _ _ => simp at hnil

/-- What the last invocation of a run adds to the summaries. -/
theorem obtained_concat {invocations : List Invocation}
    {invocation : Invocation} {summaries : List Text}
    (h : Obtained jq.toJq (invocations ++ [invocation]) summaries) :
    ∃ earlier, Obtained jq.toJq invocations earlier ∧
      ((∃ summary, GivesSummary jq.toJq invocation summary ∧
          summaries = earlier ++ [summary]) ∨
        (∀ summary, ¬ GivesSummary jq.toJq invocation summary) ∧
          summaries = earlier) := by
  generalize hrun : invocations ++ [invocation] = run at h
  cases h with
  | nil => simp at hrun
  | take hearlier hgives =>
      obtain ⟨rfl, hlast⟩ := List.append_inj' hrun rfl
      obtain rfl := List.singleton_inj.1 hlast
      exact ⟨_, hearlier, .inl ⟨_, hgives, rfl⟩⟩
  | skip hearlier hnothing =>
      obtain ⟨rfl, hlast⟩ := List.append_inj' hrun rfl
      obtain rfl := List.singleton_inj.1 hlast
      exact ⟨_, hearlier, .inr ⟨hnothing, rfl⟩⟩

theorem obtained_unique {invocations : List Invocation}
    {first last : List Text} (hfirst : Obtained jq.toJq invocations first)
    (hlast : Obtained jq.toJq invocations last) : first = last := by
  induction invocations using List.reverseRecOn generalizing first last with
  | nil => rw [obtained_nil hfirst, obtained_nil hlast]
  | append_singleton invocations invocation ih =>
      obtain ⟨before, hbefore, hadded⟩ := obtained_concat hfirst
      obtain ⟨before', hbefore', hadded'⟩ := obtained_concat hlast
      obtain rfl := ih hbefore hbefore'
      rcases hadded with ⟨summary, hgives, rfl⟩ | ⟨hnothing, rfl⟩
      · rcases hadded' with ⟨summary', hgives', rfl⟩ | ⟨hnothing', rfl⟩
        · rw [givesSummary_unique hgives hgives']
        · exact absurd hgives (hnothing' summary)
      · rcases hadded' with ⟨summary', hgives', rfl⟩ | ⟨hnothing', rfl⟩
        · exact absurd hgives' (hnothing summary')
        · rfl

end Exit

section Log

variable {jq : SilentJq}

/-- The session file that a log is stored as. -/
def sessionText (jq : Jq) (log : List Json) : Text :=
  echo (jq.print (.arr log))

theorem sessionText_nil : sessionText jq.toJq [] = Jq.emptySession := by
  rw [sessionText, jq.print_empty, Jq.emptySession]

theorem valid_summaries (summaries : List Text) :
    jq.Valid (.arr (summaries.map message)) := by
  rw [jq.valid_arr]
  intro item hitem
  obtain ⟨summary, _, rfl⟩ := List.mem_map.1 hitem
  exact Jq.valid_message summary

/-- The data of a request on a log, if `jq` can be started. -/
theorem jsonData_sessionText {log : List Json} (hlog : jq.Valid (.arr log))
    (content : Text) :
    jsonData jq.toJq (commandSubst (sessionText jq.toJq log)) content =
      if FitsArgument content ∧ FitsArgument (jq.print (.arr log)) then
        jq.print (requestBody (log ++ [message content]))
      else [] := by
  have hcontext : commandSubst (sessionText jq.toJq log) =
      jq.print (.arr log) := Jq.commandSubst_echo_print hlog
  have hbody : jq.Valid (requestBody (log ++ [message content])) :=
    valid_requestBody (Jq.valid_append_message content hlog)
  have houtput : commandSubst
      (jq.output [requestBody (log ++ [message content])]) =
      jq.print (requestBody (log ++ [message content])) :=
    Jq.commandSubst_output hbody
  rw [jsonData, hcontext, jq.readArg_print hlog]
  simp only [Option.bind_some, appendMessage, outputWith, List.forall_mem_cons,
    List.not_mem_nil, false_implies, implies_true, and_true]
  split
  · exact houtput
  · rfl

/-- A request carries the log and the query exactly when its arguments pass. -/
theorem carries_iff {file : Option Text} {log : List Json}
    (hlog : jq.Valid (.arr log))
    (hfile : file.getD Jq.emptySession = sessionText jq.toJq log)
    (invocation : Invocation) :
    (∃ data, (groqai jq.toJq file invocation).request = some data ∧
        jq.read data = [requestBody (log ++ [message invocation.content])]) ↔
      FitsArgument invocation.content ∧ FitsArgument (jq.print (.arr log)) ∧
        FitsArgument (jq.print
          (requestBody (log ++ [message invocation.content]))) := by
  have hrequest : (groqai jq.toJq file invocation).request =
      sent (jsonData jq.toJq (commandSubst (sessionText jq.toJq log))
        invocation.content) := by
    rw [groqai, hfile]
  have hbody := valid_requestBody
    (Jq.valid_append_message invocation.content hlog)
  rw [hrequest, jsonData_sessionText hlog, ← and_assoc]
  by_cases hstarts : FitsArgument invocation.content ∧
      FitsArgument (jq.print (.arr log))
  · simp only [hstarts, if_true, sent, true_and, and_self]
    constructor
    · rintro ⟨data, hdata, _⟩
      by_contra hlong
      rw [if_neg hlong] at hdata
      cases hdata
    · intro hfits
      exact ⟨_, if_pos hfits, jq.read_print hbody⟩
  · simp only [hstarts, if_false, sent, false_and, iff_false]
    rintro ⟨data, hdata, hread⟩
    have hempty : FitsArgument [] := by decide
    rw [if_pos hempty] at hdata
    obtain rfl := Option.some.inj hdata
    rw [jq.read_nil] at hread
    cases hread

/-- An invocation whose data can be sent and that obtains nothing leaves the
session as it is. -/
theorem groqai_unchanged {file : Option Text} {invocation : Invocation}
    (hdata : FitsArgument (jsonData jq.toJq
      (commandSubst (file.getD Jq.emptySession)) invocation.content))
    (h : (groqai jq.toJq file invocation).result.Fails ∨
      ∀ summary, ¬ GivesSummary jq.toJq invocation summary) :
    (groqai jq.toJq file invocation).sessionFile =
      file.getD Jq.emptySession := by
  have hresult : (groqai jq.toJq file invocation).result =
      groqExit jq.toJq (jsonData jq.toJq
        (commandSubst (file.getD Jq.emptySession)) invocation.content)
        invocation := rfl
  rw [hresult] at h
  rw [groqai]
  cases hexit : groqExit jq.toJq (jsonData jq.toJq
      (commandSubst (file.getD Jq.emptySession)) invocation.content)
      invocation with
  | apiError message => rfl
  | noContent => rfl
  | finished choices summary =>
      rw [hexit] at h
      have hnothing := h.resolve_left id
      by_cases hsummary : summary = []
      · simp [hsummary]
      · exact absurd ((givesSummary_iff hdata _ _).2 ⟨hsummary, choices, hexit⟩)
          (hnothing summary)

/-- The session that a summary leaves: the log with its message behind, or a
line end where the summary is too long for `jq`. -/
theorem groqai_sessionFile {file : Option Text} {log : List Json}
    (hlog : jq.Valid (.arr log))
    (hfile : file.getD Jq.emptySession = sessionText jq.toJq log)
    {invocation : Invocation}
    (hdata : FitsArgument (jsonData jq.toJq
      (commandSubst (file.getD Jq.emptySession)) invocation.content))
    {summary : Text} (hgives : GivesSummary jq.toJq invocation summary) :
    (groqai jq.toJq file invocation).sessionFile =
      if FitsArgument summary then
        sessionText jq.toJq (log ++ [message summary])
      else ['\n'] := by
  obtain ⟨hnonempty, choices, hexit⟩ := (givesSummary_iff hdata _ _).1 hgives
  have hholds : jq.Holds (sessionText jq.toJq log) log :=
    Jq.holds_echo_print hlog
  have hupdated := Jq.updatedContext_of_holds hholds summary
  rw [groqai, hexit]
  simp only [ne_eq, hnonempty, not_false_eq_true, ↓reduceIte, hfile,
    updatedContext, outputWith_single, hupdated]
  split <;> rfl

/-- The data of a passing invocation can be sent. -/
theorem fits_jsonData {file : Option Text} {log : List Json}
    (hlog : jq.Valid (.arr log))
    (hfile : file.getD Jq.emptySession = sessionText jq.toJq log)
    {invocation : Invocation}
    (hcarries : FitsArgument invocation.content ∧
      FitsArgument (jq.print (.arr log)) ∧
      FitsArgument (jq.print
        (requestBody (log ++ [message invocation.content])))) :
    FitsArgument (jsonData jq.toJq
      (commandSubst (file.getD Jq.emptySession)) invocation.content) := by
  rw [hfile, jsonData_sessionText hlog,
    if_pos ⟨hcarries.1, hcarries.2.1⟩]
  exact hcarries.2.2

theorem AllPass.earlier {invocations : List Invocation}
    {invocation : Invocation}
    (h : AllPass jq.toJq (invocations ++ [invocation])) :
    AllPass jq.toJq invocations := by
  intro first next last summaries hsplit
  refine h first next (last ++ [invocation]) summaries ?_
  rw [hsplit, List.append_assoc, List.cons_append]

theorem Passes.carries {log : List Json} {invocation : Invocation}
    (h : Passes jq.toJq log invocation) :
    FitsArgument invocation.content ∧ FitsArgument (jq.print (.arr log)) ∧
      FitsArgument (jq.print
        (requestBody (log ++ [message invocation.content]))) :=
  ⟨h.query, h.context, h.body⟩

/-- After a run that passes the session file is the log of the summaries. -/
theorem session_after {invocations : List Invocation}
    (hpass : AllPass jq.toJq invocations) {summaries : List Text}
    (hobtained : Obtained jq.toJq invocations summaries) :
    ((groqMachine jq.toJq).after none invocations).getD Jq.emptySession =
      sessionText jq.toJq (summaries.map message) := by
  induction invocations using List.reverseRecOn generalizing summaries with
  | nil =>
      rw [obtained_nil hobtained]
      exact sessionText_nil.symm
  | append_singleton invocations invocation ih =>
      obtain ⟨earlier, hearlier, hadded⟩ := obtained_concat hobtained
      have hfile := ih hpass.earlier hearlier
      have hlog : jq.Valid (.arr (earlier.map message)) :=
        valid_summaries earlier
      have hpasses := hpass invocations invocation [] earlier rfl hearlier
      have hdata := fits_jsonData hlog hfile hpasses.carries
      rw [Machine.after_append]
      change (groqai jq.toJq _ invocation).sessionFile = _
      rcases hadded with ⟨summary, hgives, rfl⟩ | ⟨hnothing, rfl⟩
      · rw [groqai_sessionFile hlog hfile hdata hgives,
          if_pos (hpasses.summary summary hgives), List.map_append]
        rfl
      · rw [groqai_unchanged hdata (.inr hnothing), hfile]

theorem present_after (jq : SilentJq) {invocations : List Invocation}
    (h : invocations ≠ []) :
    (groqMachine jq.toJq).after none invocations ≠ none := by
  obtain ⟨earlier, last, rfl⟩ := (List.eq_nil_or_concat' invocations).resolve_left h
  simp [Machine.after_append, groqMachine]

/-- The session after a passing run is a stored log. -/
theorem stores_after {invocations : List Invocation}
    (hpass : AllPass jq.toJq invocations) {summaries : List Text}
    (hobtained : Obtained jq.toJq invocations summaries) :
    jq.Stores ((groqMachine jq.toJq).after none invocations)
      (summaries.map message) := by
  by_cases hempty : invocations = []
  · subst hempty
    rw [obtained_nil hobtained]
    exact .inl ⟨rfl, rfl⟩
  · obtain ⟨content, hcontent⟩ :=
      Option.ne_none_iff_exists'.1 (present_after jq hempty)
    have hsession := session_after hpass hobtained
    rw [hcontent, Option.getD_some] at hsession
    refine .inr ⟨content, hcontent, ?_⟩
    rw [hsession]
    exact Jq.holds_echo_print (valid_summaries summaries)

/-- An invocation passes where the log is kept up to the end of it. -/
theorem passes_of_keepsLog {first : List Invocation} {invocation : Invocation}
    {summaries : List Text} (hpass : AllPass jq.toJq first)
    (hobtained : Obtained jq.toJq first summaries)
    (hkeeps : KeepsLog jq.toJq (first ++ [invocation])) :
    Passes jq.toJq (summaries.map message) invocation := by
  have hfile := session_after hpass hobtained
  have hlog : jq.Valid (.arr (summaries.map message)) :=
    valid_summaries summaries
  obtain ⟨summaries', hobtained', hat, _⟩ := hkeeps first [invocation] rfl
  obtain rfl := obtained_unique hobtained hobtained'
  have hcarries := (carries_iff hlog hfile invocation).1
    (hat.carries invocation rfl)
  refine ⟨hcarries.1, hcarries.2.1, hcarries.2.2, ?_⟩
  intro summary hgives
  have hdata := fits_jsonData hlog hfile hcarries
  obtain ⟨_, _, hafter, _⟩ := hkeeps (first ++ [invocation]) []
    (List.append_nil _).symm
  by_contra hlong
  have hfile' : (groqMachine jq.toJq).after none (first ++ [invocation]) =
      some ['\n'] := by
    rw [Machine.after_append]
    change some (groqai jq.toJq _ invocation).sessionFile = _
    rw [groqai_sessionFile hlog hfile hdata hgives, if_neg hlong]
  rcases hafter.stores with ⟨habsent, _⟩ | ⟨content, hcontent, hholds⟩
  · rw [hfile'] at habsent
    cases habsent
  · rw [hfile'] at hcontent
    obtain rfl := Option.some.inj hcontent
    rw [Jq.Holds, jq.read_newline] at hholds
    cases hholds

theorem KeepsLog.earlier {first last : List Invocation}
    (h : KeepsLog jq.toJq (first ++ last)) : KeepsLog jq.toJq first := by
  intro before after hsplit
  obtain ⟨summaries, hobtained, hat, hpresent⟩ :=
    h before (after ++ last) (by rw [hsplit, List.append_assoc])
  refine ⟨summaries, hobtained, ⟨hat.stores, ?_, ?_⟩, hpresent⟩
  · intro invocation hnext
    exact hat.carries invocation (List.mem_head?_append_of_mem_head? hnext)
  · intro invocation hnext
    exact hat.leaves invocation (List.mem_head?_append_of_mem_head? hnext)

end Log

section Loss

/-- An answer of the API with some content. -/
def completion (content : Text) : Json :=
  .obj [(choicesKey, .arr [.obj [(messageKey,
    .obj [(contentKey, .str content)])]])]

theorem valid_completion (content : Text) : (completion content).Valid := by
  have hmessage : Json.Valid (.obj [(contentKey, .str content)]) := by
    refine .obj (by simp) ?_
    rintro field hfield
    rw [List.mem_singleton.1 hfield]
    exact .str content
  have hchoice : Json.Valid
      (.obj [(messageKey, .obj [(contentKey, .str content)])]) := by
    refine .obj (by simp) ?_
    rintro field hfield
    rw [List.mem_singleton.1 hfield]
    exact hmessage
  refine .obj (by simp) ?_
  rintro field hfield
  rw [List.mem_singleton.1 hfield]
  refine .arr ?_
  rintro item hitem
  rw [List.mem_singleton.1 hitem]
  exact hchoice

/-- What `jq` reads of an answer that is sent as it prints. -/
theorem read_completion (content : Text) :
    plainJq.read (echo (commandSubst (plainJq.print (completion content)))) =
      [completion content] := by
  have hvalid : plainJq.Valid (completion content) := valid_completion content
  have hoption : isEchoOption (plainJq.print (completion content)) = false := rfl
  have hsubst : commandSubst (plainJq.print (completion content)) =
      plainJq.print (completion content) := by
    have houtput := Jq.commandSubst_output hvalid
    rwa [Jq.output, List.map_singleton, unlines_cons, unlines_nil,
      commandSubst_newline] at houtput
  rw [hsubst, echo_of_not_option hoption]
  exact plainJq.read_print_newline hvalid

theorem at_completion (content : Text) :
    At contentPath (completion content) (.str content) :=
  .key rfl (.first (.key rfl (.key rfl (.here _))))

theorem says_completion (content : Text) :
    Says plainJq contentPath (plainJq.print (completion content))
      (commandSubst content) := by
  refine ⟨[content], ?_, by simp⟩
  rw [read_completion]
  exact .take (at_completion content) ⟨nofun, nofun⟩ (.str content) .nil

theorem says_no_error (content : Text) :
    Says plainJq errorPath (plainJq.print (completion content)) [] := by
  refine ⟨[], ?_, rfl⟩
  rw [read_completion]
  refine .skip (fun inner hat => ?_) .nil
  cases hat with
  | key hfield hinner => cases hfield

/-- The API answers `Hi` to the query and a text to the request for a
summary. -/
def greeted (summary : Text) : Invocation where
  content := "hi".toList
  content_nonempty := by decide
  answer := plainJq.print (completion "Hi".toList)
  summaryAnswer := plainJq.print (completion summary)

theorem givesSummary_greeted {summary : Text} (hnonempty : summary ≠ [])
    (hsubst : commandSubst summary = summary) :
    GivesSummary plainJq (greeted summary) summary where
  no_error := says_no_error _
  asked := ⟨"Hi".toList, by decide, says_completion _, by decide +kernel⟩
  tells := by
    have htells := says_completion summary
    rwa [hsubst] at htells
  nonempty := hnonempty

/-- A summary that is too long for `jq` loses the log. -/
theorem not_keepsLog_of_long (jq : SilentJq) {invocation : Invocation}
    {summary : Text} (hgives : GivesSummary jq.toJq invocation summary)
    (hlong : ¬ FitsArgument summary) : ¬ KeepsLog jq.toJq [invocation] := by
  intro hkeeps
  have hpass : AllPass jq.toJq [] := by
    intro first next last summaries hsplit
    simp at hsplit
  exact hlong ((passes_of_keepsLog hpass .nil hkeeps).summary summary hgives)

/-- A summary of as many bytes as an argument may have with the zero behind
it. -/
def longSummary : Text :=
  List.replicate maxArgStrlen 'a'

theorem length_utf8_replicate (n : Nat) (c : Char) :
    (utf8 (List.replicate n c)).length = n * c.utf8Size := by
  induction n with
  | zero => rw [Nat.zero_mul, List.replicate_zero, utf8, List.flatMap_nil,
      List.length_nil]
  | succ n ih =>
      rw [List.replicate_succ, utf8_cons, List.length_append, ih,
        String.length_utf8EncodeChar, Nat.succ_mul, Nat.add_comm]

/-- The session is gone after an invocation with a summary of 131072 bytes. -/
theorem not_keepsLog : ¬ KeepsLog plainJq [greeted longSummary] := by
  have hlength : (utf8 longSummary).length = maxArgStrlen := by
    rw [longSummary, length_utf8_replicate, show 'a'.utf8Size = 1 from rfl,
      Nat.mul_one]
  have hne : longSummary ≠ [] := by
    intro hnil
    rw [hnil] at hlength
    exact absurd hlength (by decide)
  have hsubst : commandSubst longSummary = longSummary := by
    apply commandSubst_of_last
    intro hne'
    rw [List.eq_of_mem_replicate (List.getLast_mem hne')]
    decide
  have hlong : ¬ FitsArgument longSummary := by
    rw [FitsArgument, hlength]
    exact lt_irrefl _
  exact not_keepsLog_of_long plainSilentJq (givesSummary_greeted hne hsubst) hlong

end Loss

/-- The session is an append-only log of the summaries, carried by the next
request and left alone by a failed invocation, exactly in the runs that pass
every text to a program that can be started with it. -/
theorem groqSession_keepsLog_iff (jq : SilentJq)
    (invocations : List Invocation) :
    KeepsLog jq.toJq invocations ↔ AllPass jq.toJq invocations := by
  constructor
  · intro hkeeps
    induction invocations using List.reverseRecOn with
    | nil =>
        intro first invocation last summaries hsplit
        simp at hsplit
    | append_singleton invocations invocation ih =>
        have hpass := ih hkeeps.earlier
        intro first next last summaries hsplit hobtained
        rcases List.eq_nil_or_concat' last with rfl | ⟨middle, end', rfl⟩
        · obtain ⟨rfl, hlast⟩ := List.append_inj' hsplit rfl
          obtain rfl := List.singleton_inj.1 hlast
          exact passes_of_keepsLog hpass hobtained hkeeps
        · rw [← List.cons_append, ← List.append_assoc] at hsplit
          obtain ⟨hrun, _⟩ := List.append_inj' hsplit rfl
          exact hpass first next middle summaries hrun hobtained
  · intro hpass first last hsplit
    obtain ⟨summaries, hobtained⟩ := obtained_exists jq first
    have hfirst : AllPass jq.toJq first := by
      intro before next after earlier hbefore
      refine hpass before next (after ++ last) earlier ?_
      rw [hsplit, hbefore, List.append_assoc, List.cons_append]
    have hfile := session_after hfirst hobtained
    have hlog : jq.Valid (.arr (summaries.map message)) :=
      valid_summaries summaries
    have hnext : ∀ invocation ∈ last.head?,
        Passes jq.toJq (summaries.map message) invocation := by
      intro invocation hhead
      obtain ⟨rest, rfl⟩ := List.head?_eq_some_iff.1 hhead
      exact hpass first invocation rest summaries hsplit hobtained
    refine ⟨summaries, hobtained, ?_, present_after jq⟩
    exact
      { stores := stores_after hfirst hobtained
        carries := fun invocation hhead =>
          (carries_iff hlog hfile invocation).2
            (hnext invocation hhead).carries
        leaves := fun invocation hhead =>
          groqai_unchanged
            (fits_jsonData hlog hfile (hnext invocation hhead).carries) }

end Bodhi
