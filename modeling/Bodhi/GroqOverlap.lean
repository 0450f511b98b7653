/-
Overlapping invocations of groqai.sh on one session file: the steps of each
invocation in any interleaving, and the file that is left when all have ended.
The summaries are those that `jq` can be started with.
-/
import Mathlib.Data.Fintype.Basic
import Bodhi.Jq
import Bodhi.RunInvariant

namespace Bodhi

universe u

/-- A summary that the script obtained. -/
@[ext] structure Summary where
  text : Text
  nonempty : text ≠ []

instance : DecidableEq Summary := fun _ _ =>
  decidable_of_iff _ Summary.ext_iff.symm

/-- Where an invocation stands: about to test the file, to truncate and to
write the empty session, to read the context, to ask, to have `jq` read the
file again, to truncate it and to write the new array. -/
inductive Phase where
  | idle
  | creating
  | created
  | reading
  | asking (context : Text)
  | rereading (summary : Summary)
  | updating (summary : Summary) (updatedContext : Text)
  | writing (summary : Summary) (updatedContext : Text)
  | ended (summary : Option Summary)
deriving DecidableEq

/-- The shared file and the phases of all invocations. -/
structure Session (ι : Type u) where
  file : Option Text
  phase : ι → Phase

/-- A write at the start of the file leaves what lies behind it. -/
def overwrite (text content : Text) : Text :=
  text ++ content.drop text.length

/-- What the API calls of an invocation come to: a summary, or nothing where
an answer or the summary is missing. -/
def askedPhase (reply : Text) : Phase :=
  if h : reply ≠ [] then .rereading ⟨reply, h⟩ else .ended none

section Steps

variable {ι : Type u} [DecidableEq ι] (jq : Jq)

/-- The turn of one invocation; the text is the summary if it asks for one in
this turn. -/
def overlapStep (session : Session ι) (turn : ι × Text) : Session ι :=
  let file := session.file
  let content := file.getD []
  let go := fun phase => Function.update session.phase turn.1 phase
  match session.phase turn.1 with
  | .idle => ⟨file, go (if file.isNone then .creating else .reading)⟩
  | .creating => ⟨some [], go .created⟩
  | .created => ⟨some (overwrite Jq.emptySession content), go .reading⟩
  | .reading => ⟨file, go (.asking (commandSubst content))⟩
  | .asking _ => ⟨file, go (askedPhase turn.2)⟩
  | .rereading summary =>
      ⟨file, go (.updating summary (jq.updatedContext summary.text content))⟩
  | .updating summary updated => ⟨some [], go (.writing summary updated)⟩
  | .writing summary updated =>
      ⟨some (overwrite (echo updated) content), go (.ended (some summary))⟩
  | .ended _ => session

def overlapMachine : Machine (Session ι) (ι × Text) where
  next := overlapStep jq

/-- No invocation has begun. -/
def sessionStart (file : Option Text) : Session ι :=
  ⟨file, fun _ => .idle⟩

end Steps

namespace Phase

/-- Between a failed test of the file and the write of the empty session. -/
def Creates : Phase → Prop
  | creating => True
  | created => True
  | _ => False

/-- Between the second reading and the write of the new array. -/
def Writes : Phase → Prop
  | updating _ _ => True
  | writing _ _ => True
  | _ => False

/-- About to change the file. -/
def Busy (phase : Phase) : Prop :=
  phase.Creates ∨ phase.Writes

def Rereads : Phase → Prop
  | rereading _ => True
  | _ => False

/-- Ended with an entry written back. -/
def Wrote : Phase → Prop
  | ended summary => summary.isSome = true
  | _ => False

/-- Not begun, or ended. -/
def Stopped : Phase → Prop
  | idle => True
  | ended _ => True
  | _ => False

/-- The summary of an invocation that has read the file again. -/
def taken : Phase → Option Summary
  | updating summary _ => some summary
  | writing summary _ => some summary
  | ended summary => summary
  | _ => none

instance : DecidablePred Creates := fun phase => by
  cases phase <;> unfold Creates <;> infer_instance

instance : DecidablePred Writes := fun phase => by
  cases phase <;> unfold Writes <;> infer_instance

instance : DecidablePred Rereads := fun phase => by
  cases phase <;> unfold Rereads <;> infer_instance

instance : DecidablePred Wrote := fun phase => by
  cases phase <;> unfold Wrote <;> infer_instance

instance : DecidablePred Stopped := fun phase => by
  cases phase <;> unfold Stopped <;> infer_instance

theorem not_busy {phase : Phase} (hcreates : ¬ phase.Creates)
    (hwrites : ¬ phase.Writes) : ¬ phase.Busy :=
  not_or.2 ⟨hcreates, hwrites⟩

theorem not_writes_of_taken {phase : Phase} (h : phase.taken = none) :
    ¬ phase.Writes := by
  cases phase <;> first | exact id | cases h

theorem Stopped.not_writes {phase : Phase} (h : phase.Stopped) :
    ¬ phase.Writes := by
  cases phase <;> first | exact id | exact h.elim

theorem Stopped.not_creates {phase : Phase} (h : phase.Stopped) :
    ¬ phase.Creates := by
  cases phase <;> first | exact id | exact h.elim

theorem Stopped.taken_eq_some_iff {phase : Phase} (h : phase.Stopped)
    (summary : Summary) :
    phase.taken = some summary ↔ phase = .ended (some summary) := by
  cases phase <;> first | exact h.elim | simp [taken]

/-- A summary that is taken is on its way to the file or has been written. -/
theorem wrote_of_taken {phase : Phase} {summary : Summary}
    (h : phase.taken = some summary) (hwrites : ¬ phase.Writes) :
    phase.Wrote := by
  cases phase with
  | updating => exact absurd trivial hwrites
  | writing => exact absurd trivial hwrites
  | ended ended =>
      obtain rfl : ended = some summary := h
      rfl
  | _ => cases h

end Phase

/-- When `jq` reads the file again it is not truncated, and no other invocation
is about to write back; when the empty session is made no entry has been
written back, or one is about to be. -/
def StaysApart {ι : Type u} (session : Session ι) (turn : ι × Text) : Prop :=
  ((session.phase turn.1).Rereads → session.file ≠ some [] ∧
    ∀ other, other ≠ turn.1 → ¬ (session.phase other).Writes) ∧
  ((session.phase turn.1).Creates →
    (∀ other, ¬ (session.phase other).Writes) →
      ∀ other, ¬ (session.phase other).Wrote)

/-- The array for the elements `items` and the summaries of `order`. -/
def sessionItems {ι : Type u} (items : List Json)
    (order : List (ι × Summary)) : List Json :=
  items ++ order.map fun entry => message entry.2.text

/-- Every invocation has ended or never began. -/
def AllEnded {ι : Type u} (session : Session ι) : Prop :=
  ∀ i, (session.phase i).Stopped

section Decide

variable {ι : Type u} [Fintype ι] [DecidableEq ι]

instance (session : Session ι) (turn : ι × Text) :
    Decidable (StaysApart session turn) :=
  inferInstanceAs (Decidable ((_ → _ ∧ ∀ _, _ → ¬ _) ∧
    (_ → (∀ _, ¬ _) → ∀ _, ¬ _)))

instance (session : Session ι) : Decidable (AllEnded session) :=
  inferInstanceAs (Decidable (∀ _, _))

end Decide

/-- The file holds the initial elements and then, in some order, one entry for
each invocation that obtained a summary. -/
def KeepsAll {ι : Type u} (jq : Jq) (items : List Json)
    (session : Session ι) : Prop :=
  ∃ order : List (ι × Summary), (order.map Prod.fst).Nodup ∧
    (∀ i summary, (i, summary) ∈ order ↔
      session.phase i = .ended (some summary)) ∧
    jq.Stores session.file (sessionItems items order) ∧
    (session.file = none → ∀ i, session.phase i = .idle)

section Invariant

variable {ι : Type u} {jq : Jq} {items : List Json}

/-- `order` lists the invocations that have read the file again. -/
def Tally (phase : ι → Phase) (order : List (ι × Summary)) : Prop :=
  (order.map Prod.fst).Nodup ∧
    ∀ i summary, (i, summary) ∈ order ↔ (phase i).taken = some summary

/-- Invocation `i` is about to write back the array for `order` and its own
summary, and no other one is about to write. -/
structure Writer (jq : Jq) (items : List Json) (phase : ι → Phase) (i : ι)
    (summary : Summary) (updated : Text) (order : List (ι × Summary)) :
    Prop where
  updated_eq : updated =
    jq.print (.arr (sessionItems items (order ++ [(i, summary)])))
  valid : jq.Valid (.arr (sessionItems items (order ++ [(i, summary)])))
  tally : Tally phase (order ++ [(i, summary)])
  alone : ∀ j, j ≠ i → ¬ (phase j).Writes

/-- The states of a run in which the invocations stay apart: no file yet, the
file truncated for the empty session, an array at rest, or one invocation about
to write back. -/
inductive OverlapInvariant (jq : Jq) (items : List Json) :
    Session ι → Prop
  | absent {phase : ι → Phase} (hitems : items = [])
      (hphase : ∀ i, phase i = .idle ∨ phase i = .creating) :
      OverlapInvariant jq items ⟨none, phase⟩
  | truncated {phase : ι → Phase} (hitems : items = [])
      (hcreated : ∃ i, phase i = .created)
      (htaken : ∀ i, (phase i).taken = none) :
      OverlapInvariant jq items ⟨some [], phase⟩
  | settled {content : Text} {phase : ι → Phase} (order : List (ι × Summary))
      (hholds : jq.Holds content (sessionItems items order))
      (htally : Tally phase order) (hquiet : ∀ i, ¬ (phase i).Writes)
      (hcreates : order = [] → ∀ i, (phase i).Creates →
        items = [] ∧ content = Jq.emptySession) :
      OverlapInvariant jq items ⟨some content, phase⟩
  | updating {content updated : Text} {phase : ι → Phase} {i : ι}
      {summary : Summary} (order : List (ι × Summary))
      (hwriter : Writer jq items phase i summary updated order)
      (hphase : phase i = .updating summary updated) :
      OverlapInvariant jq items ⟨some content, phase⟩
  | writing {content updated : Text} {phase : ι → Phase} {i : ι}
      {summary : Summary} (order : List (ι × Summary))
      (hwriter : Writer jq items phase i summary updated order)
      (hphase : phase i = .writing summary updated)
      (hcontent : content = [] ∨ content = Jq.emptySession) :
      OverlapInvariant jq items ⟨some content, phase⟩

/-- Only idle and creating invocations find the file absent. -/
theorem OverlapInvariant.of_absent {phase : ι → Phase}
    (h : OverlapInvariant jq items ⟨none, phase⟩) (i : ι) :
    phase i = .idle ∨ phase i = .creating := by
  cases h with
  | absent _ hphase => exact hphase i

/-- A file that is not truncated, and that no invocation is about to write
back to, holds what was taken so far. -/
theorem OverlapInvariant.at_rest {content : Text} {phase : ι → Phase}
    (h : OverlapInvariant jq items ⟨some content, phase⟩)
    (hcontent : content ≠ [] ∨ ∀ i, ¬ (phase i).Creates)
    (hquiet : ∀ i, ¬ (phase i).Writes) :
    ∃ order, jq.Holds content (sessionItems items order) ∧
      Tally phase order := by
  cases h with
  | truncated _ hcreated _ =>
      obtain ⟨i, hi⟩ := hcreated
      rcases hcontent with hcontent | hcreates
      · exact absurd rfl hcontent
      · exact absurd (by rw [hi]; trivial) (hcreates i)
  | settled order hholds htally _ _ => exact ⟨order, hholds, htally⟩
  | updating _ _ hphase =>
      exact absurd (by rw [hphase]; trivial) (hquiet _)
  | writing _ _ hphase _ =>
      exact absurd (by rw [hphase]; trivial) (hquiet _)

theorem askedPhase_quiet (reply : Text) :
    ¬ (askedPhase reply).Busy ∧ (askedPhase reply).taken = none := by
  rw [askedPhase]
  split <;> exact ⟨Phase.not_busy id id, rfl⟩

theorem sessionItems_append (order : List (ι × Summary)) (i : ι)
    (summary : Summary) :
    sessionItems items (order ++ [(i, summary)]) =
      sessionItems items order ++ [message summary.text] := by
  simp [sessionItems]

@[simp] theorem overwrite_nil (text : Text) : overwrite text [] = text := by
  simp [overwrite]

@[simp] theorem overwrite_self (text : Text) : overwrite text text = text := by
  simp [overwrite]

/-- A new array covers the empty session. -/
theorem overwrite_echo_print (items : List Json) {content : Text}
    (h : content = [] ∨ content = Jq.emptySession) :
    overwrite (echo (jq.print (.arr items))) content =
      echo (jq.print (.arr items)) := by
  rcases h with rfl | rfl
  · exact overwrite_nil _
  · obtain ⟨body, hbody⟩ := jq.print_arr items
    have hshort : Jq.emptySession.length ≤
        (echo (jq.print (.arr items))).length := by
      have hthree : Jq.emptySession.length = 3 := by decide
      rw [hthree, Jq.echo_print_arr, hbody]
      simp
    rw [overwrite, List.drop_eq_nil_of_le hshort, List.append_nil]

/-- What an invocation that writes back is about to leave in the file. -/
theorem OverlapInvariant.of_writer {file : Option Text} {phase : ι → Phase}
    (h : OverlapInvariant jq items ⟨file, phase⟩) {i : ι} {summary : Summary}
    {updated : Text} (hi : phase i = .updating summary updated ∨
      phase i = .writing summary updated) :
    (∃ order, Writer jq items phase i summary updated order) ∧
      (phase i = .writing summary updated →
        file = some [] ∨ file = some Jq.emptySession) := by
  have hwrites : (phase i).Writes := by
    rcases hi with hi | hi <;> rw [hi] <;> trivial
  have halone : ∀ {k}, (∀ j, j ≠ k → ¬ (phase j).Writes) → k = i := by
    intro k hquiet
    by_contra hne
    exact hquiet i (Ne.symm hne) hwrites
  cases h with
  | absent _ hphase =>
      rcases hphase i with h | h <;> rw [h] at hi <;> simp at hi
  | truncated _ _ htaken =>
      have hnone := htaken i
      rcases hi with hi | hi <;> rw [hi] at hnone <;> cases hnone
  | settled _ _ _ hquiet _ => exact absurd hwrites (hquiet i)
  | updating order hwriter hphase =>
      obtain rfl := halone hwriter.alone
      rw [hphase] at hi ⊢
      obtain ⟨rfl, rfl⟩ : _ ∧ _ := by simpa using hi
      exact ⟨⟨order, hwriter⟩, nofun⟩
  | writing order hwriter hphase hcontent =>
      obtain rfl := halone hwriter.alone
      rw [hphase] at hi ⊢
      obtain ⟨rfl, rfl⟩ : _ ∧ _ := by simpa using hi
      refine ⟨⟨order, hwriter⟩, fun _ => ?_⟩
      exact hcontent.imp (congrArg some) (congrArg some)

theorem overlapInvariant_start {file : Option Text}
    (h : jq.Stores file items) :
    OverlapInvariant (ι := ι) jq items (sessionStart file) := by
  rcases h with ⟨rfl, hitems⟩ | ⟨content, rfl, hholds⟩
  · exact .absent hitems fun _ => Or.inl rfl
  · refine .settled [] ?_ ⟨by simp, fun i summary => ?_⟩ (fun _ => id)
      fun _ _ => False.elim
    · simpa [sessionItems] using hholds
    · simp [Phase.taken]

/-- When all have ended nothing is on its way to the file. -/
theorem OverlapInvariant.keepsAll {session : Session ι}
    (h : OverlapInvariant jq items session) (hended : AllEnded session) :
    KeepsAll jq items session := by
  obtain ⟨file, phase⟩ := session
  have hcreates : ∀ i, ¬ (phase i).Creates := fun i => (hended i).not_creates
  have hwrites : ∀ i, ¬ (phase i).Writes := fun i => (hended i).not_writes
  cases file with
  | none =>
      have hidle : ∀ i, phase i = .idle := by
        intro i
        apply (h.of_absent i).resolve_right
        intro hcreating
        exact hcreates i (by rw [hcreating]; trivial)
      refine ⟨[], by simp, fun i summary => ?_, Or.inl ⟨rfl, ?_⟩,
        fun _ => hidle⟩
      · simp [hidle i]
      · cases h with
        | absent hitems _ => simp [sessionItems, hitems]
  | some content =>
      obtain ⟨order, hholds, hnodup, hmem⟩ :=
        h.at_rest (Or.inr hcreates) hwrites
      refine ⟨order, hnodup, fun i summary => ?_,
        Or.inr ⟨content, rfl, hholds⟩, nofun⟩
      rw [hmem]
      exact (hended i).taken_eq_some_iff summary

theorem Tally.nil {phase : ι → Phase} (h : ∀ i, (phase i).taken = none) :
    Tally phase [] :=
  ⟨List.nodup_nil, fun i summary => by simp [h i]⟩

/-- As long as nothing is written back and nothing is about to be, nothing is
taken. -/
theorem Tally.eq_nil {phase : ι → Phase} {order : List (ι × Summary)}
    (h : Tally phase order) (hquiet : ∀ i, ¬ (phase i).Writes)
    (hwrote : ∀ i, ¬ (phase i).Wrote) : order = [] := by
  apply List.eq_nil_iff_forall_not_mem.2
  rintro ⟨i, summary⟩ hmem
  exact hwrote i (Phase.wrote_of_taken ((h.2 i summary).1 hmem) (hquiet i))

theorem Tally.taken_eq_none {phase : ι → Phase} (h : Tally phase []) (i : ι) :
    (phase i).taken = none := by
  apply Option.eq_none_iff_forall_ne_some.2
  intro summary htaken
  cases (h.2 i summary).2 htaken

variable [DecidableEq ι]

theorem Tally.update {phase : ι → Phase} {order : List (ι × Summary)}
    (h : Tally phase order) {i : ι} {next : Phase}
    (htaken : next.taken = (phase i).taken) :
    Tally (Function.update phase i next) order := by
  refine ⟨h.1, fun j summary => ?_⟩
  rw [h.2]
  by_cases hj : j = i
  · subst hj
    rw [Function.update_self, htaken]
  · rw [Function.update_of_ne hj]

/-- An invocation that reads the file again comes last in the order. -/
theorem Tally.take {phase : ι → Phase} {order : List (ι × Summary)}
    (h : Tally phase order) {i : ι} {next : Phase} {summary : Summary}
    (hbefore : (phase i).taken = none) (hnext : next.taken = some summary) :
    Tally (Function.update phase i next) (order ++ [(i, summary)]) := by
  have hfresh : ∀ summary', (i, summary') ∉ order := by
    intro summary' hmem
    rw [h.2, hbefore] at hmem
    cases hmem
  constructor
  · rw [List.map_append, List.nodup_append]
    refine ⟨h.1, by simp, ?_⟩
    rintro j hj _ hi rfl
    obtain ⟨⟨j, summary'⟩, hmem, rfl⟩ := List.mem_map.1 hj
    obtain rfl : j = i := by simpa using hi
    exact hfresh summary' hmem
  · intro j summary'
    rw [List.mem_append, List.mem_singleton, Prod.mk.injEq]
    by_cases hj : j = i
    · subst hj
      rw [Function.update_self, hnext, Option.some.injEq]
      simp [hfresh, eq_comm]
    · rw [Function.update_of_ne hj, h.2]
      simp [hj]

/-- What holds of the new phase and held of the old one holds after a step. -/
theorem forall_update (P : Phase → Prop) {phase : ι → Phase} {i : ι}
    {next : Phase} (hnext : P next) {j : ι} (hj : P (phase j)) :
    P (Function.update phase i next j) := by
  by_cases heq : j = i
  · rwa [heq, Function.update_self]
  · rwa [Function.update_of_ne heq]

theorem quiet_update {phase : ι → Phase} {i : ι} {next : Phase}
    (hnext : ¬ next.Writes) {j : ι} (hj : ¬ (phase j).Writes) :
    ¬ (Function.update phase i next j).Writes :=
  forall_update (fun phase => ¬ phase.Writes) hnext hj

/-- The writer stays the writer while another invocation goes on. -/
theorem Writer.beside {phase : ι → Phase} {i : ι} {summary : Summary}
    {updated : Text} {order : List (ι × Summary)}
    (h : Writer jq items phase i summary updated order)
    (hi : (phase i).Writes) {j : ι} {next : Phase} (hj : ¬ (phase j).Writes)
    (hnext : ¬ next.Writes) (htaken : next.taken = (phase j).taken) :
    Writer jq items (Function.update phase j next) i summary updated order ∧
      Function.update phase j next i = phase i := by
  have hne : i ≠ j := by
    rintro rfl
    exact hj hi
  refine ⟨⟨h.updated_eq, h.valid, h.tally.update htaken, ?_⟩,
    Function.update_of_ne hne _ _⟩
  exact fun k hk => quiet_update hnext (h.alone k hk)

/-- The writer itself goes on. -/
theorem Writer.goOn {phase : ι → Phase} {i : ι} {summary : Summary}
    {updated : Text} {order : List (ι × Summary)}
    (h : Writer jq items phase i summary updated order) {next : Phase}
    (htaken : next.taken = (phase i).taken) :
    Writer jq items (Function.update phase i next) i summary updated order := by
  refine ⟨h.updated_eq, h.valid, h.tally.update htaken, fun j hj => ?_⟩
  rw [Function.update_of_ne hj]
  exact h.alone j hj

/-- A step beside a writer keeps the invariant, whatever it does to the file
before the writer truncates it, and if it leaves no more than the empty session
after. -/
theorem OverlapInvariant.beside {content : Text} {phase : ι → Phase}
    {i : ι} {summary : Summary} {updated : Text} {order : List (ι × Summary)}
    (h : Writer jq items phase i summary updated order)
    (hi : phase i = .updating summary updated ∨
      phase i = .writing summary updated ∧
        (content = [] ∨ content = Jq.emptySession))
    {j : ι} {next : Phase} (hj : ¬ (phase j).Writes) (hnext : ¬ next.Writes)
    (htaken : next.taken = (phase j).taken) :
    OverlapInvariant jq items ⟨some content, Function.update phase j next⟩ := by
  have hwrites : (phase i).Writes := by
    rcases hi with hi | ⟨hi, _⟩ <;> rw [hi] <;> trivial
  obtain ⟨hwriter, hsame⟩ := h.beside hwrites hj hnext htaken
  rcases hi with hi | ⟨hi, hcontent⟩
  · exact .updating order hwriter (hsame.trans hi)
  · exact .writing order hwriter (hsame.trans hi) hcontent

/-- A step between phases that are not busy and take no summary leaves the
file as it is. -/
theorem OverlapInvariant.update {content : Text} {phase : ι → Phase}
    (h : OverlapInvariant jq items ⟨some content, phase⟩) {i : ι}
    {next : Phase} (hbusy : ¬ (phase i).Busy) (hnext : ¬ next.Busy)
    (htaken : next.taken = (phase i).taken) :
    OverlapInvariant jq items ⟨some content, Function.update phase i next⟩ := by
  unfold Phase.Busy at hbusy hnext
  rw [not_or] at hbusy hnext
  cases h with
  | truncated hitems hcreated hnone =>
      obtain ⟨j, hj⟩ := hcreated
      refine .truncated hitems ⟨j, ?_⟩ fun k => ?_
      · rw [Function.update_of_ne, hj]
        rintro rfl
        exact hbusy.1 (by rw [hj]; trivial)
      · exact forall_update (·.taken = none) (htaken.trans (hnone i))
          (hnone k)
  | settled order hholds htally hquiet hcreates =>
      refine .settled order hholds (htally.update htaken)
        (fun j => quiet_update hnext.2 (hquiet j)) fun hempty j => ?_
      exact forall_update (fun phase => phase.Creates → _)
        (fun h => absurd h hnext.1) (hcreates hempty j)
  | updating order hwriter hphase =>
      exact .beside hwriter (Or.inl hphase) hbusy.2 hnext.2 htaken
  | writing order hwriter hphase hcontent =>
      exact .beside hwriter (Or.inr ⟨hphase, hcontent⟩) hbusy.2 hnext.2 htaken

/-- The file is truncated for the empty session: nothing is stored in it, or
another invocation is about to write back. -/
theorem OverlapInvariant.create {file : Option Text} {phase : ι → Phase}
    (h : OverlapInvariant jq items ⟨file, phase⟩) {i : ι}
    (hi : phase i = .creating)
    (hapart : (∀ j, ¬ (phase j).Writes) → ∀ j, ¬ (phase j).Wrote) :
    OverlapInvariant jq items
      ⟨some [], Function.update phase i .created⟩ := by
  have htaken : Phase.created.taken = (phase i).taken := by
    rw [hi]
    rfl
  have hwrites : ¬ (phase i).Writes := by
    rw [hi]
    exact id
  have htruncated : items = [] → (∀ j, (phase j).taken = none) →
      OverlapInvariant jq items
        ⟨some [], Function.update phase i .created⟩ := fun hitems hnone =>
    .truncated hitems ⟨i, Function.update_self _ _ _⟩ fun j =>
      forall_update (·.taken = none) rfl (hnone j)
  cases h with
  | absent hitems hphase =>
      apply htruncated hitems
      intro j
      rcases hphase j with hj | hj <;> rw [hj] <;> rfl
  | truncated hitems _ hnone => exact htruncated hitems hnone
  | settled order _ htally hquiet hcreates =>
      obtain rfl := htally.eq_nil hquiet (hapart hquiet)
      exact htruncated (hcreates rfl i (by rw [hi]; trivial)).1
        htally.taken_eq_none
  | updating order hwriter hphase =>
      exact .beside hwriter (Or.inl hphase) hwrites id htaken
  | writing order hwriter hphase _ =>
      exact .beside hwriter (Or.inr ⟨hphase, Or.inl rfl⟩) hwrites id htaken

/-- The empty session is written over a file with nothing in it, or one that
another invocation is about to replace. -/
theorem OverlapInvariant.writeEmpty {file : Option Text} {phase : ι → Phase}
    (h : OverlapInvariant jq items ⟨file, phase⟩) {i : ι}
    (hi : phase i = .created)
    (hapart : (∀ j, ¬ (phase j).Writes) → ∀ j, ¬ (phase j).Wrote) :
    OverlapInvariant jq items
      ⟨some (overwrite Jq.emptySession (file.getD [])),
        Function.update phase i .reading⟩ := by
  have htaken : Phase.reading.taken = (phase i).taken := by
    rw [hi]
    rfl
  have hwrites : ¬ (phase i).Writes := by
    rw [hi]
    exact id
  have hempty : ∀ {content : Text}, content = [] ∨ content = Jq.emptySession →
      overwrite Jq.emptySession content = Jq.emptySession := by
    rintro content (rfl | rfl)
    · exact overwrite_nil _
    · exact overwrite_self _
  have hsettled : items = [] → Tally phase [] → (∀ j, ¬ (phase j).Writes) →
      OverlapInvariant jq items
        ⟨some Jq.emptySession, Function.update phase i .reading⟩ := by
    intro hitems htally hquiet
    refine .settled [] ?_ (htally.update htaken)
      (fun j => quiet_update id (hquiet j)) fun _ _ _ => ⟨hitems, rfl⟩
    rw [hitems]
    exact Jq.holds_emptySession
  cases h with
  | absent _ hphase =>
      rcases hphase i with h | h <;> rw [h] at hi <;> cases hi
  | truncated hitems _ hnone =>
      rw [Option.getD_some, hempty (Or.inl rfl)]
      exact hsettled hitems (.nil hnone) fun j =>
        Phase.not_writes_of_taken (hnone j)
  | settled order _ htally hquiet hcreates =>
      obtain rfl := htally.eq_nil hquiet (hapart hquiet)
      obtain ⟨hitems, rfl⟩ := hcreates rfl i (by rw [hi]; trivial)
      rw [Option.getD_some, hempty (Or.inr rfl)]
      exact hsettled hitems htally hquiet
  | updating order hwriter hphase =>
      exact .beside hwriter (Or.inl hphase) hwrites id htaken
  | writing order hwriter hphase hcontent =>
      exact .beside hwriter (Or.inr ⟨hphase, Or.inr (hempty hcontent)⟩) hwrites
        id htaken

/-- The new array is taken from what the file holds. -/
theorem OverlapInvariant.reread {content : Text} {phase : ι → Phase}
    (h : OverlapInvariant jq items ⟨some content, phase⟩) {i : ι}
    {summary : Summary} (hi : phase i = .rereading summary)
    (hcontent : content ≠ [])
    (hothers : ∀ j, j ≠ i → ¬ (phase j).Writes) :
    OverlapInvariant jq items ⟨some content, Function.update phase i
      (.updating summary (jq.updatedContext summary.text content))⟩ := by
  have hquiet : ∀ j, ¬ (phase j).Writes := by
    intro j
    by_cases hj : j = i
    · rw [hj, hi]
      exact id
    · exact hothers j hj
  obtain ⟨order, hholds, htally⟩ := h.at_rest (Or.inl hcontent) hquiet
  have hupdated := Jq.updatedContext_of_holds hholds summary.text
  have hvalid := Jq.valid_append_message summary.text (Jq.valid_of_holds hholds)
  rw [← sessionItems_append order i] at hupdated hvalid
  have htake : Tally (Function.update phase i (.updating summary
      (jq.updatedContext summary.text content))) (order ++ [(i, summary)]) :=
    htally.take (by rw [hi]; rfl) rfl
  refine .updating order ⟨hupdated, hvalid, htake, fun j hj => ?_⟩
    (Function.update_self _ _ _)
  rw [Function.update_of_ne hj]
  exact hothers j hj

/-- The file is truncated for the new array. -/
theorem OverlapInvariant.truncate {file : Option Text} {phase : ι → Phase}
    (h : OverlapInvariant jq items ⟨file, phase⟩) {i : ι} {summary : Summary}
    {updated : Text} (hi : phase i = .updating summary updated) :
    OverlapInvariant jq items
      ⟨some [], Function.update phase i (.writing summary updated)⟩ := by
  obtain ⟨⟨order, hwriter⟩, _⟩ := h.of_writer (Or.inl hi)
  have hnext : Phase.taken (.writing summary updated) = (phase i).taken := by
    rw [hi]
    rfl
  exact .writing order (hwriter.goOn hnext) (Function.update_self _ _ _)
    (Or.inl rfl)

/-- The new array is written, and the file is at rest. -/
theorem OverlapInvariant.writeBack {file : Option Text} {phase : ι → Phase}
    (h : OverlapInvariant jq items ⟨file, phase⟩) {i : ι} {summary : Summary}
    {updated : Text} (hi : phase i = .writing summary updated) :
    OverlapInvariant jq items
      ⟨some (overwrite (echo updated) (file.getD [])),
        Function.update phase i (.ended (some summary))⟩ := by
  obtain ⟨⟨order, hwriter⟩, hfile⟩ := h.of_writer (Or.inr hi)
  have hcovers : file.getD [] = [] ∨ file.getD [] = Jq.emptySession := by
    rcases hfile hi with rfl | rfl
    · exact Or.inl rfl
    · exact Or.inr rfl
  have hnext : Phase.taken (.ended (some summary)) = (phase i).taken := by
    rw [hi]
    rfl
  have hended := hwriter.goOn hnext
  rw [hwriter.updated_eq, overwrite_echo_print _ hcovers]
  refine .settled _ (Jq.holds_echo_print hwriter.valid) hended.tally
    (fun j => ?_) (by simp)
  by_cases hj : j = i
  · rw [hj, Function.update_self]
    exact id
  · exact hended.alone j hj

/-- A step keeps the invariant if the invocations stay apart. -/
theorem overlapStep_keeps {session : Session ι} {turn : ι × Text}
    (h : OverlapInvariant jq items session)
    (hapart : StaysApart session turn) :
    OverlapInvariant jq items (overlapStep jq session turn) := by
  obtain ⟨file, phase⟩ := session
  obtain ⟨i, reply⟩ := turn
  obtain ⟨hrereads, hcreates⟩ := hapart
  dsimp only at hrereads hcreates
  have hpresent : phase i ≠ .idle → phase i ≠ .creating →
      ∃ content, file = some content := by
    intro hidle hcreating
    cases file with
    | none => exact absurd (h.of_absent i) (by simp [hidle, hcreating])
    | some content => exact ⟨content, rfl⟩
  have hcalm : ∀ {calm : Phase}, phase i = calm → ¬ calm.Busy →
      ¬ (phase i).Busy := fun heq hnot => heq ▸ hnot
  rw [overlapStep]
  dsimp only
  cases hphase : phase i with
  | idle =>
      cases file with
      | none =>
          cases h with
          | absent hitems habsent =>
              refine .absent hitems fun j => ?_
              by_cases hj : j = i
              · exact Or.inr (by rw [hj, Function.update_self]; rfl)
              · rw [Function.update_of_ne hj]
                exact habsent j
      | some content =>
          exact h.update (hcalm hphase (Phase.not_busy id id))
            (Phase.not_busy id id) (by rw [hphase]; rfl)
  | creating => exact h.create hphase (hcreates (by rw [hphase]; trivial))
  | created => exact h.writeEmpty hphase (hcreates (by rw [hphase]; trivial))
  | reading =>
      obtain ⟨content, rfl⟩ := hpresent (by simp [hphase]) (by simp [hphase])
      exact h.update (hcalm hphase (Phase.not_busy id id))
        (Phase.not_busy id id) (by rw [hphase]; rfl)
  | asking context =>
      obtain ⟨content, rfl⟩ := hpresent (by simp [hphase]) (by simp [hphase])
      obtain ⟨hquiet, htaken⟩ := askedPhase_quiet reply
      exact h.update (hcalm hphase (Phase.not_busy id id)) hquiet
        (by rw [hphase, htaken]; rfl)
  | rereading summary =>
      obtain ⟨content, rfl⟩ := hpresent (by simp [hphase]) (by simp [hphase])
      obtain ⟨hcontent, hothers⟩ := hrereads (by rw [hphase]; trivial)
      exact h.reread hphase (fun heq => hcontent (congrArg some heq)) hothers
  | updating summary updated => exact h.truncate hphase
  | writing summary updated => exact h.writeBack hphase
  | ended summary => exact h

end Invariant

section Overlap

variable {ι : Type u} [DecidableEq ι] (jq : Jq)

end Overlap

/-- Two invocations in turn, of which the first obtains the summary `a` and
the second the summary `b`. -/
def turnsOf (order : List Bool) : List (Bool × Text) :=
  order.map fun i => (i, if i then ['a'] else ['b'])

/-- Both read the file again before either writes back, and the first summary
is lost. -/
def lostTurns : List (Bool × Text) :=
  turnsOf [true, true, true, false, true, false, true, false, true, false,
    true, true, false, false]

end Bodhi
