/-
`jq` as groqai.sh uses it: what it reads and prints, the filters of the
script, and the session file that they keep.
-/
import Bodhi.JsonText

namespace Bodhi

/-- What the script relies on in `jq`.  `read` gives the values that an input
has before its end or its first error, and `readArg` the value of an argument;
the values that `jq` holds are closed under building arrays and objects, and
are read back from their print. -/
structure Jq where
  Valid : Json → Prop
  read : Text → List Json
  readArg : Text → Option Json
  print : Json → Text
  valid_of_read : ∀ {text : Text} {value : Json}, value ∈ read text →
    Valid value
  valid_str : ∀ text, Valid (.str text)
  valid_arr : ∀ {items : List Json}, Valid (.arr items) ↔
    ∀ item ∈ items, Valid item
  valid_obj : ∀ {fields : List (Text × Json)}, (fields.map Prod.fst).Nodup →
    (∀ field ∈ fields, Valid field.2) → Valid (.obj fields)
  read_print : ∀ {value : Json}, Valid value → read (print value) = [value]
  read_print_newline : ∀ {value : Json}, Valid value →
    read (print value ++ ['\n']) = [value]
  readArg_print : ∀ {value : Json}, Valid value →
    readArg (print value) = some value
  print_last : ∀ {value : Json}, Valid value →
    ∃ c, (print value).getLast? = some c ∧ c ≠ '\n'
  print_arr : ∀ items, ∃ body, print (.arr items) = '[' :: (body ++ [']'])
  print_empty : print (.arr []) = "[]".toList

/-- The JSON texts of this development, without extensions. -/
def plainJq : Jq where
  Valid := Json.Valid
  read := readJson
  readArg := readOneJson
  print := printJson
  valid_of_read := valid_of_mem_readJson
  valid_str := .str
  valid_arr := ⟨fun h => by cases h; assumption, .arr⟩
  valid_obj := .obj
  read_print := readJson_printJson
  read_print_newline h :=
    readJson_printJson_append h (delimited_cons (by decide) _)
  readArg_print := readOneJson_printJson
  print_last := printJson_last
  print_arr := printJson_arr
  print_empty := rfl

def roleKey : Text := "role".toList
def contentKey : Text := "content".toList
def userRole : Text := "user".toList

/-- `{role: "user", content: $content}`. -/
def message (content : Text) : Json :=
  .obj [(roleKey, .str userRole), (contentKey, .str content)]

/-- `. + [{role: "user", content: $content}]`; nothing but arrays and null can
be added to an array. -/
def appendMessage (content : Text) : Json → Option Json
  | .arr items => some (.arr (items ++ [message content]))
  | .null => some (.arr [message content])
  | _ => none

namespace Jq

variable (jq : Jq)

/-- The output of a filter: one printed value after the other. -/
def output (values : List Json) : Text :=
  unlines (values.map jq.print)

/-- The variable UPDATED_CONTEXT, for the content of the session file, where
`jq` can be started with the summary. -/
def updatedContext (summary content : Text) : Text :=
  commandSubst (jq.output
    ((jq.read content).filterMap (appendMessage summary)))

/-- The text that `echo "[]"` writes. -/
def emptySession : Text :=
  echo "[]".toList

/-- The session file holds an array with these elements. -/
def Holds (content : Text) (items : List Json) : Prop :=
  jq.read content = [.arr items]

/-- The session file is absent, which counts as no elements, or it holds an
array. -/
def Stores (file : Option Text) (items : List Json) : Prop :=
  file = none ∧ items = [] ∨
    ∃ content, file = some content ∧ jq.Holds content items

variable {jq}

theorem commandSubst_output {value : Json} (hvalue : jq.Valid value) :
    commandSubst (jq.output [value]) = jq.print value := by
  obtain ⟨c, hlast, hc⟩ := jq.print_last hvalue
  have hkeep : commandSubst (jq.print value) = jq.print value := by
    apply commandSubst_of_last
    intro hne
    rw [List.getLast?_eq_some_getLast hne, Option.some.injEq] at hlast
    rwa [hlast]
  simpa [output] using (commandSubst_newline (jq.print value)).trans hkeep

theorem valid_message (content : Text) : jq.Valid (message content) := by
  apply jq.valid_obj
  · simp only [List.map_cons, List.map_nil]
    decide
  · intro field hfield
    simp only [List.mem_cons, List.not_mem_nil, or_false] at hfield
    rcases hfield with rfl | rfl <;> exact jq.valid_str _

theorem valid_of_holds {content : Text} {items : List Json}
    (h : jq.Holds content items) : jq.Valid (.arr items) := by
  have hread : Json.arr items ∈ jq.read content := by
    rw [h]
    exact List.mem_cons_self
  exact jq.valid_of_read hread

theorem valid_append_message {items : List Json} (summary : Text)
    (h : jq.Valid (.arr items)) :
    jq.Valid (.arr (items ++ [message summary])) := by
  rw [jq.valid_arr] at h ⊢
  intro item hitem
  rcases List.mem_append.1 hitem with hitem | hitem
  · exact h item hitem
  · rw [List.mem_singleton.1 hitem]
    exact valid_message summary

/-- Printed arrays are no options of `echo`. -/
theorem echo_print_arr (items : List Json) :
    echo (jq.print (.arr items)) = jq.print (.arr items) ++ ['\n'] := by
  obtain ⟨body, hbody⟩ := jq.print_arr items
  apply echo_of_not_option
  rw [hbody]
  rfl

/-- A write-back of a printed array holds the array. -/
theorem holds_echo_print {items : List Json} (h : jq.Valid (.arr items)) :
    jq.Holds (echo (jq.print (.arr items))) items := by
  rw [Holds, echo_print_arr]
  exact jq.read_print_newline h

theorem holds_emptySession : jq.Holds emptySession [] := by
  have hvalid : jq.Valid (.arr []) := jq.valid_arr.2 (by simp)
  have hholds := holds_echo_print hvalid
  rwa [jq.print_empty] at hholds

/-- The context is the array as it was printed. -/
theorem commandSubst_echo_print {items : List Json}
    (h : jq.Valid (.arr items)) :
    commandSubst (echo (jq.print (.arr items))) = jq.print (.arr items) := by
  have hline : jq.output [.arr items] = jq.print (.arr items) ++ ['\n'] := by
    simp [output]
  rw [echo_print_arr, ← hline, commandSubst_output h]

/-- What `jq` makes of a session file with an array in it. -/
theorem updatedContext_of_holds {content : Text} {items : List Json}
    (h : jq.Holds content items) (summary : Text) :
    jq.updatedContext summary content =
      jq.print (.arr (items ++ [message summary])) := by
  have hread : (jq.read content).filterMap (appendMessage summary) =
      [.arr (items ++ [message summary])] := by
    rw [h]
    rfl
  rw [updatedContext, hread]
  exact commandSubst_output (valid_append_message summary (valid_of_holds h))

end Jq

end Bodhi
