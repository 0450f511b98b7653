/-
The lists of dwm as dwm.c and movestack.c keep them: clients linked by their
`next` and `snext` fields.  Each function that writes these fields does to the
links what the model does to the lists.
-/
import Bodhi.LinkedChain
import Bodhi.WindowOrder

namespace Bodhi

namespace Dwm

/-- The heads `clients` and `stack` of the monitors and the fields `next` and
`snext` of the clients. -/
structure Links where
  clients : Linked Nat Window
  stack : Linked Nat Window

namespace Links

variable (l : Links) (s : Wm)

def attach (c : Window) : Links :=
  { l with clients := l.clients.push (s.client c).mon c }

def attachBottom (fuel : Nat) (c : Window) : Links :=
  { l with clients := l.clients.enqueue fuel (s.client c).mon c }

def attachStack (c : Window) : Links :=
  { l with stack := l.stack.push (s.client c).mon c }

def detach (fuel : Nat) (c : Window) : Links :=
  { l with clients := l.clients.unlink fuel (s.client c).mon c }

/-- The links after `detachstack`, and the client that it selects. -/
def detachStack (fuel : Nat) (c : Window) : Links × Option Window :=
  let i := (s.client c).mon
  let l := { l with stack := l.stack.unlink fuel i c }
  (l,
    if (s.mon i).sel = some c then
      firstFrom l.stack.next s.isVisible fuel (l.stack.head i)
    else (s.mon i).sel)

/-- The loop of `movestack` that looks for the clients before two others. -/
def findBefore (next : Window → Option Window) (a b : Option Window) :
    Nat → Option Window → Option Window × Option Window →
      Option Window × Option Window
  | fuel + 1, some i, (p, pc) =>
      if p.isNone || pc.isNone then
        findBefore next a b fuel (next i)
          (if next i = a then some i else p, if next i = b then some i else pc)
      else (p, pc)
  | _, _, found => found

/-- The client before another one leads to `c`, unless it is `c` itself. -/
def lead (l : Linked Nat Window) (p : Option Window) (c : Window) :
    Linked Nat Window :=
  match p with
  | some p => if p ≠ c then l.write (.next p) (some c) else l
  | none => l

/-- The writes of `movestack` that let `sel` and `c` change places; `p` and
`pc` are the clients before them. -/
def exchange (l : Linked Nat Window) (i : Nat) (sel c : Window)
    (p pc : Option Window) : Linked Nat Window :=
  let temp := if l.next sel = some c then some sel else l.next sel
  let l := l.write (.next sel)
    (if l.next c = some sel then some c else l.next c)
  let l := l.write (.next c) temp
  let l := lead l p c
  let l := lead l pc sel
  if l.head i = some sel then l.write (.head i) (some c)
  else if l.head i = some c then l.write (.head i) (some sel)
  else l

/-- The client with which `movestack` wants `sel` to change places; the way
down reads the field of `sel`. -/
def moveTarget (fuel : Nat) (dir : Int) (sel : Option Window) :
    Option (Option Window) :=
  let next := l.clients.next
  let first := l.clients.head s.selmon
  if dir > 0 then
    sel.map fun sel =>
      (firstFrom next s.isTiled fuel (next sel)).or
        (firstFrom next s.isTiled fuel first)
  else
    let (i, c) := lastUntil next s.isTiled sel fuel first none
    some (if c.isSome then c else (lastUntil next s.isTiled none fuel i none).2)

/-- `movestack` on the links; `none` where it follows a null pointer. -/
def moveStack (fuel : Nat) (dir : Int) : Option Links :=
  let sel := (s.mon s.selmon).sel
  match l.moveTarget s fuel dir sel with
  | none => none
  | some c =>
      let (p, pc) := findBefore l.clients.next sel c fuel
        (l.clients.head s.selmon) (none, none)
      match c, sel with
      | none, _ => some l
      | some _, none => none
      | some c, some sel =>
          if c = sel then some l
          else some { l with
            clients := exchange l.clients s.selmon sel c p pc }

section Exchange

variable {next : Window → Option Window}

/-- The loop ends with `found`, if it began with `before`: a client of the
chain that leads to `a`, or else what there was before. -/
def Finds (next : Window → Option Window) (a : Option Window)
    (clients : List Window) (before found : Option Window) : Prop :=
  (∀ w, found = some w → before = some w ∨ w ∈ clients ∧ next w = a) ∧
    (found = none → before = none ∧ ∀ w ∈ clients, next w ≠ a)

theorem Finds.cons {a before found : Option Window} {c : Window}
    {rest : List Window}
    (h : Finds next a rest (if next c = a then some c else before) found) :
    Finds next a (c :: rest) before found := by
  constructor
  · intro w hw
    rcases h.1 w hw with hbefore | ⟨hmem, hnext⟩
    · split at hbefore
      · next hc =>
          obtain rfl := Option.some.inj hbefore
          exact Or.inr ⟨List.mem_cons_self, hc⟩
      · exact Or.inl hbefore
    · exact Or.inr ⟨List.mem_cons_of_mem c hmem, hnext⟩
  · intro hnone
    obtain ⟨hbefore, hrest⟩ := h.2 hnone
    split at hbefore
    · cases hbefore
    · next hc => exact ⟨hbefore, List.forall_mem_cons.2 ⟨hc, hrest⟩⟩

theorem findBefore_spec {a b : Option Window} {clients : List Window}
    {start : Option Window} (h : Leads next start clients none) {fuel : Nat}
    (hfuel : clients.length ≤ fuel) (p pc : Option Window) :
    let r := findBefore next a b fuel start (p, pc)
    Finds next a clients p r.1 ∧ Finds next b clients pc r.2 := by
  induction clients generalizing start fuel p pc with
  | nil =>
      obtain rfl : start = none := h
      have hrest : findBefore next a b fuel none (p, pc) = (p, pc) := by
        cases fuel <;> rfl
      have hstay : ∀ link before, Finds next link [] before before :=
        fun _ _ => ⟨fun _ hw => Or.inl hw,
          fun hnone => ⟨hnone, fun _ hw => nomatch hw⟩⟩
      rw [hrest]
      exact ⟨hstay a p, hstay b pc⟩
  | cons c rest ih =>
      cases fuel with
      | zero => exact absurd hfuel (Nat.not_succ_le_zero _)
      | succ fuel =>
          rw [h.1]
          simp only [findBefore]
          split
          · obtain ⟨hp, hpc⟩ := ih h.2 (Nat.le_of_succ_le_succ hfuel)
              (if next c = a then some c else p)
              (if next c = b then some c else pc)
            exact ⟨hp.cons, hpc.cons⟩
          · next hboth =>
              simp only [Bool.or_eq_true, Option.isNone_iff_eq_none, not_or]
                at hboth
              exact ⟨⟨fun _ hw => Or.inl hw, fun hnone => absurd hnone hboth.1⟩,
                ⟨fun _ hw => Or.inl hw, fun hnone => absurd hnone hboth.2⟩⟩

/-- In a chain without repetition the client found is the one before. -/
theorem Finds.iff {clients : List Window} (hnodup : clients.Nodup)
    {start : Option Window} (h : Leads next start clients none) {x : Window}
    {found : Option Window} (hfound : Finds next (some x) clients none found)
    {w : Window} (hw : w ∈ clients) : found = some w ↔ next w = some x := by
  constructor
  · intro heq
    exact ((hfound.1 w heq).resolve_left (fun hnone => nomatch hnone)).2
  · intro hnext
    cases hf : found with
    | none => exact absurd hnext ((hfound.2 hf).2 w hw)
    | some v =>
        obtain ⟨hv, hvnext⟩ :=
          (hfound.1 v hf).resolve_left (fun hnone => nomatch hnone)
        rw [h.next_inj hnodup hv hw hvnext hnext]

variable {l : Linked Nat Window} {i : Nat} {clients : List Window}
  (hnodup : clients.Nodup) (h : l.Spells i clients) {sel c : Window}
  (hsel : sel ∈ clients) (hc : c ∈ clients) (hne : c ≠ sel)
  {p pc : Option Window} (hp : Finds l.next (some sel) clients none p)
  (hpc : Finds l.next (some c) clients none pc)

omit hnodup h hsel hc hne hp hpc

theorem write_next_next (x : Window) (link : Option Window) (w : Window) :
    (l.write (.next x) link).next w = if w = x then link else l.next w :=
  Function.update_apply _ _ _ _

theorem lead_next (before : Option Window) (x w : Window) :
    (lead l before x).next w =
      if w ≠ x ∧ before = some w then some x else l.next w := by
  unfold lead
  cases before with
  | none => simp
  | some y =>
      dsimp only
      by_cases hy : y = x
      · rw [if_neg (by simpa using hy), if_neg]
        rintro ⟨hw, heq⟩
        exact hw ((Option.some.inj heq).symm.trans hy)
      · rw [if_pos hy, write_next_next]
        by_cases hw : w = y
        · rw [if_pos hw, if_pos ⟨hw ▸ hy, hw ▸ rfl⟩]
        · rw [if_neg hw, if_neg]
          exact fun hall => hw (Option.some.inj hall.2).symm

theorem lead_head (before : Option Window) (x : Window) :
    (lead l before x).head = l.head := by
  unfold lead
  split
  · split <;> rfl
  · rfl

/-- The fields that `exchange` leaves behind. -/
theorem exchange_next (w : Window) :
    (exchange l i sel c p pc).next w =
      if w ≠ sel ∧ pc = some w then some sel
      else if w ≠ c ∧ p = some w then some c
      else if w = c then if l.next sel = some c then some sel else l.next sel
      else if w = sel then if l.next c = some sel then some c else l.next c
      else l.next w := by
  unfold exchange
  extract_lets temp first second third fourth
  have hlast : (if fourth.head i = some sel then fourth.write (.head i) (some c)
      else if fourth.head i = some c then fourth.write (.head i) (some sel)
      else fourth).next = fourth.next := by
    split
    · rfl
    · split <;> rfl
  rw [hlast, lead_next, lead_next, write_next_next, write_next_next]

theorem exchange_head (j : Nat) :
    (exchange l i sel c p pc).head j =
      if j ≠ i then l.head j
      else if l.head i = some sel then some c
      else if l.head i = some c then some sel
      else l.head i := by
  have hwrite : ∀ (other : Linked Nat Window) (link : Option Window),
      (other.write (.head i) link).head j =
        if j = i then link else other.head j :=
    fun other link => Function.update_apply _ _ _ _
  unfold exchange
  extract_lets temp first second third fourth
  have hhead : fourth.head = l.head := by
    rw [lead_head, lead_head]
    rfl
  rw [hhead, ite_not]
  by_cases hj : j = i
  · subst hj
    rw [if_pos rfl]
    split
    · rw [hwrite, if_pos rfl]
    · split
      · rw [hwrite, if_pos rfl]
      · rw [hhead]
  · rw [if_neg hj]
    split
    · rw [hwrite, if_neg hj, hhead]
    · split
      · rw [hwrite, if_neg hj, hhead]
      · rw [hhead]

include hnodup h hsel hc hne hp hpc

/-- The writes of `movestack` exchange two clients of a list. -/
theorem exchange_spells :
    (exchange l i sel c p pc).Spells i (Wm.swapClients sel c clients) := by
  have hself : ∀ w ∈ clients, l.next w ≠ some w :=
    fun w hw => h.next_ne_self hnodup hw
  have hbefore : ∀ w ∈ clients, p = some w ↔ l.next w = some sel :=
    fun w hw => hp.iff hnodup h hw
  have hbefore' : ∀ w ∈ clients, pc = some w ↔ l.next w = some c :=
    fun w hw => hpc.iff hnodup h hw
  have hstart : (exchange l i sel c p pc).head i = (l.head i).map
      fun w => if w = sel then c else if w = c then sel else w := by
    rw [exchange_head, if_neg (fun hii => hii rfl)]
    cases l.head i with
    | none => rfl
    | some w =>
        simp only [Option.some.injEq, Option.map_some]
        split
        · rfl
        · split <;> rfl
  rw [Linked.Spells, hstart]
  refine Leads.map (fun w hw => ?_) h
  by_cases hws : w = sel
  · have hnot : ¬ (c ≠ sel ∧ pc = some c) := fun hall =>
      hself c hc ((hbefore' c hc).1 hall.2)
    rw [hws, if_pos rfl, exchange_next, if_neg hnot,
      if_neg (fun hall => hall.1 rfl), if_pos rfl]
    cases hx : l.next sel with
    | none => rfl
    | some x =>
        have hxs : x ≠ sel := fun heq => hself sel hsel (heq ▸ hx)
        by_cases hxc : x = c
        · simp [hxc, hne]
        · simp [hxc, hxs]
  · by_cases hwc : w = c
    · have hnot : ¬ (sel ≠ c ∧ p = some sel) := fun hall =>
        hself sel hsel ((hbefore sel hsel).1 hall.2)
      rw [if_neg hws, if_pos hwc, hwc, exchange_next,
        if_neg (fun hall => hall.1 rfl), if_neg hnot, if_neg hne.symm,
        if_pos rfl]
      cases hx : l.next c with
      | none => rfl
      | some x =>
          have hxc : x ≠ c := fun heq => hself c hc (heq ▸ hx)
          by_cases hxs : x = sel
          · simp [hxs]
          · simp [hxc, hxs]
    · rw [if_neg hws, if_neg hwc, exchange_next, if_neg hwc, if_neg hws]
      simp only [ne_eq, hws, hwc, not_false_iff, true_and, hbefore w hw,
        hbefore' w hw]
      cases hx : l.next w with
      | none => rfl
      | some x =>
          by_cases hxc : x = c
          · simp [hxc, hne]
          · by_cases hxs : x = sel
            · simp [hxs, hne.symm]
            · simp [hxc, hxs]

omit hnodup h hne in
theorem exchange_spells_of_ne {j : Nat} (hij : j ≠ i) {others : List Window}
    (hothers : l.Spells j others) (hdisjoint : ∀ w ∈ clients, w ∉ others) :
    (exchange l i sel c p pc).Spells j others := by
  have hfound : ∀ {link before w}, Finds l.next link clients none before →
      w ∈ others → before ≠ some w := by
    intro link before w hfinds hw heq
    rcases hfinds.1 w heq with hnone | ⟨hmem, _⟩
    · cases hnone
    · exact hdisjoint w hmem hw
  rw [Linked.Spells, exchange_head, if_pos hij]
  apply Leads.congr _ hothers
  intro w hw
  have hws : w ≠ sel := fun heq => hdisjoint sel hsel (heq ▸ hw)
  have hwc : w ≠ c := fun heq => hdisjoint c hc (heq ▸ hw)
  rw [exchange_next, if_neg fun hall => hfound hpc hw hall.2,
    if_neg fun hall => hfound hp hw hall.2, if_neg hwc, if_neg hws]

end Exchange

end Links

namespace Wm

/-- The links spell the lists of every monitor. -/
structure LinkedBy (s : Wm) (l : Links) : Prop where
  clients : ∀ i < s.monCount, l.clients.Spells i (s.mon i).clients
  stack : ∀ i < s.monCount, l.stack.Spells i (s.mon i).stack

/-- The lists have no client twice and none in common. -/
structure Apart (n : Nat) (lists : Nat → List Window) : Prop where
  nodup : ∀ i < n, (lists i).Nodup
  disjoint : ∀ i < n, ∀ j < n, j ≠ i → ∀ c ∈ lists i, c ∉ lists j

theorem Consistent.apart {s : Wm} (h : s.Consistent) :
    Apart s.monCount fun i => (s.mon i).clients where
  nodup := h.nodup
  disjoint i hi j hj hij c hc hmem :=
    hij ((h.owner j hj c hmem).symm.trans (h.owner i hi c hc))

theorem Consistent.apart_stack {s : Wm} (h : s.Consistent) :
    Apart s.monCount fun i => (s.mon i).stack where
  nodup _ hi := h.stack_nodup hi
  disjoint i hi j hj hij c hc hmem :=
    h.apart.disjoint i hi j hj hij c ((h.perm i hi).mem_iff.1 hc)
      ((h.perm j hj).mem_iff.1 hmem)

section Lists

variable {s : Wm} {l : Links} (h : s.LinkedBy l) {c : Window}

include h

theorem attach_linkedBy (hfresh : ∀ j < s.monCount, c ∉ (s.mon j).clients) :
    (s.attach c).LinkedBy (l.attach s c) := by
  constructor
  · intro j hj
    by_cases hjc : j = (s.client c).mon
    · have hpush := Linked.push_spells (h.clients j hj) (hfresh j hj)
      rw [attach, hjc, modMon_mon_self, ← hjc]
      exact hjc ▸ hpush
    · rw [attach, modMon_mon_of_ne s _ hjc]
      exact Linked.push_spells_of_ne (h.clients j hj) hjc (hfresh j hj)
  · intro j hj
    rw [attach, modMon_field Monitor.stack s rfl]
    exact h.stack j hj

theorem attachBottom_linkedBy (hapart : Apart s.monCount
      fun i => (s.mon i).clients) (howner : (s.client c).mon < s.monCount)
    (hfresh : ∀ j < s.monCount, c ∉ (s.mon j).clients) {fuel : Nat}
    (hfuel : (s.mon (s.client c).mon).clients.length < fuel) :
    (s.attachBottom c).LinkedBy (l.attachBottom s fuel c) := by
  constructor
  · intro j hj
    by_cases hjc : j = (s.client c).mon
    · rw [attachBottom, hjc, modMon_mon_self]
      exact Linked.enqueue_spells (h.clients _ howner)
        (hapart.nodup _ howner) (hfresh _ howner) hfuel
    · rw [attachBottom, modMon_mon_of_ne s _ hjc]
      exact Linked.enqueue_spells_of_ne (h.clients _ howner) (h.clients j hj)
        hjc (hapart.disjoint _ howner j hj hjc) (hfresh _ howner)
        (hfresh j hj) hfuel
  · intro j hj
    rw [attachBottom, modMon_field Monitor.stack s rfl]
    exact h.stack j hj

theorem attachStack_linkedBy (hfresh : ∀ j < s.monCount, c ∉ (s.mon j).stack) :
    (s.attachStack c).LinkedBy (l.attachStack s c) := by
  constructor
  · intro j hj
    rw [attachStack, modMon_field Monitor.clients s rfl]
    exact h.clients j hj
  · intro j hj
    by_cases hjc : j = (s.client c).mon
    · have hpush := Linked.push_spells (h.stack j hj) (hfresh j hj)
      rw [attachStack, hjc, modMon_mon_self, ← hjc]
      exact hjc ▸ hpush
    · rw [attachStack, modMon_mon_of_ne s _ hjc]
      exact Linked.push_spells_of_ne (h.stack j hj) hjc (hfresh j hj)

theorem detach_linkedBy (hapart : Apart s.monCount
      fun i => (s.mon i).clients) (hc : s.Manages c) {fuel : Nat}
    (hfuel : (s.mon (s.client c).mon).clients.length ≤ fuel) :
    (s.detach c).LinkedBy (l.detach s fuel c) := by
  constructor
  · intro j hj
    by_cases hjc : j = (s.client c).mon
    · rw [detach, hjc, modMon_mon_self]
      exact Linked.unlink_spells (h.clients _ hc.1) (hapart.nodup _ hc.1) hc.2
        hfuel
    · rw [detach, modMon_mon_of_ne s _ hjc]
      exact Linked.unlink_spells_of_ne (h.clients _ hc.1) (h.clients j hj) hjc
        (hapart.disjoint _ hc.1 j hj hjc) (hapart.nodup _ hc.1) hc.2 hfuel
  · intro j hj
    rw [detach, modMon_field Monitor.stack s rfl]
    exact h.stack j hj

theorem detachStack_linkedBy (hapart : Apart s.monCount
      fun i => (s.mon i).stack) (howner : (s.client c).mon < s.monCount)
    (hc : c ∈ (s.mon (s.client c).mon).stack) {fuel : Nat}
    (hfuel : (s.mon (s.client c).mon).stack.length ≤ fuel) :
    (s.detachStack c).LinkedBy (l.detachStack s fuel c).1 ∧
      ((s.detachStack c).mon (s.client c).mon).sel =
        (l.detachStack s fuel c).2 := by
  have hunlinked := Linked.unlink_spells (h.stack _ howner)
    (hapart.nodup _ howner) hc hfuel
  refine ⟨⟨fun j hj => ?_, fun j hj => ?_⟩, ?_⟩
  · rw [detachStack, modMon_field Monitor.clients s rfl]
    exact h.clients j hj
  · by_cases hjc : j = (s.client c).mon
    · rw [detachStack, hjc, modMon_mon_self]
      exact hunlinked
    · rw [detachStack, modMon_mon_of_ne s _ hjc]
      exact Linked.unlink_spells_of_ne (h.stack _ howner) (h.stack j hj) hjc
        (hapart.disjoint _ howner j hj hjc) (hapart.nodup _ howner) hc hfuel
  · have hwalk := firstFrom_eq (p := s.isVisible) hunlinked
      (le_trans (List.length_erase_le ..) hfuel)
    rw [detachStack, modMon_mon_self]
    simp only [Links.detachStack, hwalk]

end Lists

section MoveStack

variable {s : Wm} {l : Links} {fuel : Nat}

theorem moveTarget_some (h : l.clients.Spells s.selmon
      (s.mon s.selmon).clients) (hnodup : (s.mon s.selmon).clients.Nodup)
    (hfuel : (s.mon s.selmon).clients.length < fuel) (dir : Int) {sel : Window}
    (hsel : sel ∈ (s.mon s.selmon).clients) :
    l.moveTarget s fuel dir (some sel) =
      some (neighbour s.isTiled dir (s.mon s.selmon).clients sel) := by
  obtain ⟨before, after, hsplit, hbefore, hafter⟩ := exists_split hsel
  generalize (s.mon s.selmon).clients = clients at *
  unfold Links.moveTarget neighbour
  rw [hbefore, hafter]
  dsimp only
  have hlen : clients.length = before.length + (after.length + 1) := by
    rw [hsplit, List.length_append, List.length_cons]
  obtain ⟨link, hfront, hlink, hrest⟩ := (hsplit ▸ h).split
  split
  · rw [Option.map_some, firstFrom_eq hrest (by omega),
      firstFrom_eq h (by omega)]
    rfl
  · have hnot : ∀ x ∈ before, some x ≠ some sel := by
      intro x hx heq
      have hxs : x = sel := Option.some.inj heq
      rw [hsplit] at hnodup
      exact (List.nodup_append.1 hnodup).2.2 x hx sel List.mem_cons_self hxs
    have hback : Leads l.clients.next (some sel) (sel :: after) none :=
      ⟨rfl, hrest⟩
    rw [hlink] at hfront
    rw [lastUntil_eq hfront hnot (by omega), Option.or_none]
    dsimp only
    rw [lastUntil_eq hback (fun x _ heq => nomatch heq)
      (by rw [List.length_cons]; omega), Option.or_none]
    cases lastThat s.isTiled before <;> rfl

theorem moveTarget_none (h : l.clients.Spells s.selmon
      (s.mon s.selmon).clients)
    (hfuel : (s.mon s.selmon).clients.length < fuel) (dir : Int) :
    l.moveTarget s fuel dir none = if dir > 0 then none
      else some (lastThat s.isTiled (s.mon s.selmon).clients) := by
  unfold Links.moveTarget
  dsimp only
  split
  · rfl
  · rw [lastUntil_eq h (fun x _ heq => nomatch heq) hfuel, Option.or_none]
    dsimp only
    cases lastThat s.isTiled (s.mon s.selmon).clients with
    | none => cases fuel <;> rfl
    | some c => rfl

theorem lastThat_isSome (p : Window → Bool) (clients : List Window) :
    (lastThat p clients).isSome = clients.any p := by
  rw [lastThat, Bool.eq_iff_iff, List.getLast?_isSome, List.any_eq_true]
  constructor
  · intro hne
    obtain ⟨c, hc⟩ := List.exists_mem_of_ne_nil _ hne
    exact ⟨c, List.mem_filter.1 hc⟩
  · rintro ⟨c, hc⟩
    exact List.ne_nil_of_mem (List.mem_filter.2 hc)

/-- `movestack` does to the links what the model does to the lists, and
follows a null pointer exactly where the model crashes. -/
theorem moveStack_linkedBy (h : s.LinkedBy l) (hc : s.Consistent)
    (hfuel : (s.mon s.selmon).clients.length < fuel) (dir : Int) :
    match l.moveStack s fuel dir with
    | none => (s.moveStack dir).crashed = true
    | some links => (s.moveStack dir).LinkedBy links ∧
        (s.moveStack dir).crashed = s.crashed := by
  have hspells := h.clients _ hc.selmon
  have hnodup := hc.nodup _ hc.selmon
  unfold Links.moveStack moveStack
  dsimp only
  cases hsel : (s.mon s.selmon).sel with
  | none =>
      rw [moveTarget_none hspells hfuel, ← lastThat_isSome]
      by_cases hdown : dir > 0
      · simp [hdown]
      · rw [if_neg hdown, decide_eq_false hdown, Bool.false_or]
        dsimp only
        cases lastThat s.isTiled (s.mon s.selmon).clients with
        | none => exact ⟨h, rfl⟩
        | some c => rfl
  | some sel =>
      have hmem := hc.sel _ hc.selmon sel hsel
      rw [moveTarget_some hspells hnodup hfuel dir hmem]
      dsimp only
      cases hnext : neighbour s.isTiled dir (s.mon s.selmon).clients sel with
      | none => exact ⟨h, rfl⟩
      | some c =>
          dsimp only
          by_cases hcs : c = sel
          · simp only [if_pos hcs]
            exact ⟨h, trivial⟩
          · simp only [if_neg hcs]
            have hcmem := (neighbour_eq_some hnext).1
            obtain ⟨hp, hpc⟩ := Links.findBefore_spec (a := some sel)
              (b := some c) hspells (Nat.le_of_lt hfuel) none none
            refine ⟨⟨fun j hj => ?_, fun j hj => ?_⟩, rfl⟩
            · change Linked.Spells _ j ((s.modMon s.selmon fun m =>
                { m with clients := swapClients sel c m.clients }).mon
                j).clients
              by_cases hjc : j = s.selmon
              · rw [hjc, modMon_mon_self]
                exact Links.exchange_spells hnodup hspells hmem hcmem hcs hp hpc
              · rw [modMon_mon_of_ne s _ hjc]
                exact Links.exchange_spells_of_ne hmem hcmem hp hpc hjc
                  (h.clients j hj) (hc.apart.disjoint _ hc.selmon j hj hjc)
            · change Linked.Spells _ j ((s.modMon s.selmon fun m =>
                { m with clients := swapClients sel c m.clients }).mon j).stack
              rw [modMon_field Monitor.stack s rfl]
              exact h.stack j hj

/-- The links of two windows on one monitor. -/
def twoLinks : Links where
  clients := ⟨fun _ => some 1, fun c => if c = 1 then some 2 else none⟩
  stack := ⟨fun _ => some 2, fun c => if c = 2 then some 1 else none⟩

theorem twoLinks_linkedBy (hcount : s.monCount = 1)
    (hclients : (s.mon 0).clients = [1, 2])
    (hstack : (s.mon 0).stack = [2, 1]) : s.LinkedBy twoLinks := by
  constructor <;> intro i hi <;> obtain rfl : i = 0 := by omega
  · rw [hclients]
    exact ⟨rfl, rfl, rfl⟩
  · rw [hstack]
    exact ⟨rfl, rfl, rfl⟩

/-- The key that moves the second of them up. -/
theorem moveStack_linkedBy_two :
    let s := machine.after
      (setup 20 ⟨100, 90, some (⟨0, 0, 100, 90⟩, []), none⟩)
      [.mapRequest 1 {}, .mapRequest 2 {}]
    match twoLinks.moveStack s 3 (-1) with
    | none => (s.moveStack (-1)).crashed = true
    | some links => (s.moveStack (-1)).LinkedBy links ∧
        (s.moveStack (-1)).crashed = s.crashed := by
  intro s
  have htidy : s.Tidy := (always_tidy (setup_tidy _ _) _).last
  have hcount : s.monCount = 1 := by decide +kernel
  have hclients : (s.mon 0).clients = [1, 2] := by decide +kernel
  have hstack : (s.mon 0).stack = [2, 1] := by decide +kernel
  have hlength : (s.mon s.selmon).clients.length < 3 := by decide +kernel
  clear_value s
  have hlinked := twoLinks_linkedBy hcount hclients hstack
  exact moveStack_linkedBy hlinked htidy.consistent hlength (-1)

end MoveStack

end Wm

namespace Links

variable (l : Links) (s : Wm) (fuel : Nat)

/-- The links after `focus`, which looks for the top of the stack along
them. -/
def focus (target : Option Window) : Links :=
  let top := firstFrom l.stack.next s.isVisible fuel (l.stack.head s.selmon)
  match (target.filter s.isVisible).or top with
  | some c => (l.detachStack s fuel c).1.attachStack s c
  | none => l

/-- `detach` and `detachstack`. -/
def leave (c : Window) : Links :=
  ((l.detach s fuel c).detachStack (s.detach c) fuel c).1

/-- `attachbottom` and `attachstack`. -/
def enter (c : Window) : Links :=
  (l.attachBottom s fuel c).attachStack s c

def unmanage (c : Window) : Links :=
  (l.leave s fuel c).focus ((s.detach c).detachStack c) fuel none

def sendMon (c : Window) (i : Nat) : Links :=
  if (s.client c).mon = i then l
  else
    let l := l.leave s fuel c
    let s := (s.detach c).detachStack c
    let s := s.modClient c fun client =>
      { client with mon := i, tags := (s.mon i).view }
    let l := l.enter s fuel c
    l.focus ((s.attachBottom c).attachStack c) fuel none

def manage (w : Window) (x : WindowInfo) : Links :=
  let c := s.newClient x
  let s := { s with
    client := Function.update s.client w c
    shown := Function.update s.shown w false
    netClientList := s.netClientList ++ [w] }
  let l := l.enter s fuel w
  let s := (s.attachBottom w).attachStack w
  let s := s.modMon c.mon fun m => { m with sel := some w }
  l.focus (s.arrange c.mon) fuel none

def pop (c : Window) : Links :=
  let l := (l.detach s fuel c).attach s c
  l.focus ((s.detach c).attach c) fuel (some c)

end Links

namespace Wm

section Moves

variable {s : Wm} {l : Links}

/-- Links know nothing of a state but its lists. -/
theorem LinkedBy.congr {t : Wm} (h : s.LinkedBy l)
    (hcount : t.monCount = s.monCount)
    (hclients : ∀ i, (t.mon i).clients = (s.mon i).clients)
    (hstack : ∀ i, (t.mon i).stack = (s.mon i).stack) : t.LinkedBy l where
  clients i hi := hclients i ▸ h.clients i (hcount ▸ hi)
  stack i hi := hstack i ▸ h.stack i (hcount ▸ hi)

theorem LinkedBy.modMon (h : s.LinkedBy l) (i : Nat) {f : Monitor → Monitor}
    (hclients : ∀ m, (f m).clients = m.clients)
    (hstack : ∀ m, (f m).stack = m.stack) : (s.modMon i f).LinkedBy l :=
  h.congr rfl (modMon_field Monitor.clients s (hclients _))
    (modMon_field Monitor.stack s (hstack _))

/-- No list is longer than the walks along it. -/
def Within (s : Wm) (fuel : Nat) : Prop :=
  ∀ i < s.monCount, (s.mon i).clients.length ≤ fuel

variable {fuel : Nat}

theorem Within.stack (hfuel : s.Within fuel) (hc : s.Consistent) {i : Nat}
    (hi : i < s.monCount) : (s.mon i).stack.length ≤ fuel :=
  (hc.perm i hi).length_eq.trans_le (hfuel i hi)

theorem not_mem_detachStack (hc : s.Consistent) {c : Window} {j : Nat}
    (hj : j < s.monCount) : c ∉ ((s.detachStack c).mon j).stack := by
  by_cases hjc : j = (s.client c).mon
  · rw [detachStack, hjc, modMon_mon_self]
    exact fun hmem => ((hc.stack_nodup (hjc ▸ hj)).mem_erase_iff.1 hmem).1 rfl
  · rw [detachStack, modMon_mon_of_ne s _ hjc]
    exact fun hmem =>
      not_mem_of_ne_mon hc hj hjc ((hc.perm j hj).mem_iff.1 hmem)

theorem select_linkedBy (h : s.LinkedBy l) (hc : s.Consistent)
    (hfuel : s.Within fuel) {c : Window} (hmanages : s.Manages c) :
    (s.select c).LinkedBy ((l.detachStack s fuel c).1.attachStack s c) := by
  have hmem := (hc.perm _ hmanages.1).mem_iff.2 hmanages.2
  obtain ⟨hout, _⟩ := detachStack_linkedBy h hc.apart_stack hmanages.1 hmem
    (hfuel.stack hc hmanages.1)
  have hin := attachStack_linkedBy (s := s.detachStack c) hout
    fun j hj => not_mem_detachStack hc hj
  refine hin.congr rfl (fun i => ?_) fun i => ?_
  · rw [select_field s c Monitor.clients fun _ _ _ => rfl, attachStack,
      modMon_field Monitor.clients _ rfl, detachStack,
      modMon_field Monitor.clients _ rfl]
  · by_cases hi : i = (s.client c).mon
    · rw [hi, select_mon]
      simp [attachStack, detachStack]
    · rw [select_mon_of_ne s c hi]
      simp [attachStack, detachStack, modMon_mon_of_ne, hi]

theorem focus_linkedBy (h : s.LinkedBy l) (hc : s.Consistent)
    (hfuel : s.Within fuel) {target : Option Window}
    (htarget : ∀ c, target = some c → s.Manages c) :
    (s.focus target).LinkedBy (l.focus s fuel target) := by
  have htop := firstFrom_eq (p := s.isVisible) (h.stack _ hc.selmon)
    (hfuel.stack hc hc.selmon)
  unfold Links.focus focus
  dsimp only
  rw [htop]
  cases hpick : (target.filter s.isVisible).or
      ((s.mon s.selmon).stack.find? s.isVisible) with
  | none => exact h.modMon _ (fun _ => rfl) fun _ => rfl
  | some c =>
      apply select_linkedBy h hc hfuel
      rcases Option.or_eq_some_iff.1 hpick with hpicked | ⟨_, hpicked⟩
      · exact htarget c (Option.filter_eq_some_iff.1 hpicked).1
      · exact hc.manages_of_stack hc.selmon (List.mem_of_find?_eq_some hpicked)

theorem leave_linkedBy (h : s.LinkedBy l) (hc : s.Consistent)
    (hfuel : s.Within fuel) {c : Window} (hmanages : s.Manages c) :
    ((s.detach c).detachStack c).LinkedBy (l.leave s fuel c) := by
  have hmem := (hc.perm _ hmanages.1).mem_iff.2 hmanages.2
  have hout := detach_linkedBy h hc.apart hmanages (hfuel _ hmanages.1)
  have hstack : ∀ i, ((s.detach c).mon i).stack = (s.mon i).stack :=
    modMon_field Monitor.stack s rfl
  have hapart : Apart (s.detach c).monCount
      fun i => ((s.detach c).mon i).stack := by
    simp only [hstack]
    exact hc.apart_stack
  apply (detachStack_linkedBy hout hapart hmanages.1 _ _).1
  · rw [hstack]
    exact hmem
  · rw [hstack]
    exact hfuel.stack hc hmanages.1

theorem enter_linkedBy (h : s.LinkedBy l) (hc : s.Consistent) {c : Window}
    {f : Client → Client} (hfresh : ∀ j < s.monCount, c ∉ (s.mon j).clients)
    (howner : (f (s.client c)).mon < s.monCount)
    (hfuel : (s.mon (f (s.client c)).mon).clients.length < fuel) :
    (((s.modClient c f).attachBottom c).attachStack c).LinkedBy
      (l.enter (s.modClient c f) fuel c) := by
  have hwrite : (s.modClient c f).LinkedBy l :=
    h.congr rfl (fun _ => rfl) fun _ => rfl
  rw [← modClient_client_self s c f] at howner hfuel
  have hin := attachBottom_linkedBy hwrite hc.apart howner hfresh hfuel
  apply attachStack_linkedBy hin
  intro j hj
  rw [attachBottom, modMon_field Monitor.stack _ rfl]
  exact fun hmem => hfresh j hj ((hc.perm j hj).mem_iff.1 hmem)

theorem noTarget : ∀ c, none = some c → s.Manages c := fun _ hc => nomatch hc

theorem unmanage_linkedBy (h : s.LinkedBy l) (hc : s.Consistent)
    (hfuel : s.Within fuel) {c : Window} (hmanages : s.Manages c) :
    (s.unmanage c).LinkedBy (l.unmanage s fuel c) := by
  have hout := leave_linkedBy h hc hfuel hmanages
  have hleaves := detachStack_detach_leaves hc (c := c)
  have hwithin : ((s.detach c).detachStack c).Within fuel := by
    intro i hi
    rw [hleaves.clients i hi]
    exact List.length_erase_le.trans (hfuel i hi)
  have hfocus := focus_linkedBy hout (hc.leaves hleaves) hwithin
    noTarget
  exact hfocus.congr rfl (fun _ => rfl) fun _ => rfl

theorem pop_linkedBy (h : s.LinkedBy l) (hc : s.Consistent)
    (hfuel : s.Within fuel) {c : Window} (hmanages : s.Manages c) :
    (s.pop c).LinkedBy (l.pop s fuel c) := by
  have hout := detach_linkedBy h hc.apart hmanages (hfuel _ hmanages.1)
  have hin := attach_linkedBy (s := s.detach c) (c := c) hout
    fun j hj => by
      by_cases hjc : j = (s.client c).mon
      · rw [detach, hjc, modMon_mon_self]
        exact fun hmem =>
          ((hc.nodup _ (hjc ▸ hj)).mem_erase_iff.1 hmem).1 rfl
      · rw [detach, modMon_mon_of_ne s _ hjc]
        exact not_mem_of_ne_mon hc hj hjc
  have hperm := (List.perm_cons_erase hmanages.2).symm
  have hquiet : s.Quiet ((s.detach c).attach c) := by
    rw [detach_attach]
    exact .modMon s _ hperm rfl rfl rfl rfl
  have hfront := hc.ordinary hquiet.ordinary
  have hwithin : ((s.detach c).attach c).Within fuel := by
    intro i hi
    rw [(hquiet.clients i).length_eq]
    exact hfuel i hi
  have hfocus := focus_linkedBy hin hfront hwithin
    fun d hd => Option.some.inj hd ▸ (hquiet.ordinary.manages c).2 hmanages
  exact hfocus.congr rfl (fun _ => rfl) fun _ => rfl

theorem arrangeAll_mon (s : Wm) : s.arrangeAll.mon = s.mon := by
  have hfold : ∀ (is : List Nat) (t : Wm), (is.foldl arrange t).mon = t.mon := by
    intro is
    induction is with
    | nil => exact fun _ => rfl
    | cons i is ih => exact fun t => ih (t.arrange i)
  exact hfold _ s

theorem entered_within (hfuel : ∀ i < s.monCount,
      (s.mon i).clients.length < fuel) {t : Wm} {c : Window} {i : Nat}
    (henters : s.Enters t c i) : t.Within fuel := by
  intro j hj
  rw [henters.monCount] at hj
  by_cases hji : j = i
  · rw [hji, henters.clients_at.length_eq, List.length_cons]
    exact hfuel i henters.target
  · rw [henters.clients j hji]
    exact Nat.le_of_lt (hfuel j hj)

theorem sendMon_linkedBy (h : s.LinkedBy l) (hc : s.Consistent)
    (hfuel : ∀ i < s.monCount, (s.mon i).clients.length < fuel) {c : Window}
    (hmanages : s.Manages c) {i : Nat} (hi : i < s.monCount) :
    (s.sendMon c i).LinkedBy (l.sendMon s fuel c i) := by
  have hout := leave_linkedBy h hc
    (fun i hi => Nat.le_of_lt (hfuel i hi)) hmanages
  have hleaves := detachStack_detach_leaves hc (c := c)
  have hremoved := hc.leaves hleaves
  have hmoved := sendMon_moved hc c hi
  have hshort : ∀ j < ((s.detach c).detachStack c).monCount,
      (((s.detach c).detachStack c).mon j).clients.length < fuel := by
    intro j hj
    rw [hleaves.clients j hj]
    exact List.length_erase_le.trans_lt (hfuel j hj)
  have hin := enter_linkedBy (f := fun client => { client with
    mon := i, tags := (((s.detach c).detachStack c).mon i).view })
    hout hremoved hmoved.fresh hi (hshort i hi)
  have hfocus := focus_linkedBy hin (hremoved.enters hmoved)
    (entered_within hshort hmoved) noTarget
  unfold Links.sendMon sendMon
  split
  · exact h
  · exact hfocus.congr (arrangeAll_quiet _).monCount
      (fun j => by rw [arrangeAll_mon]) fun j => by rw [arrangeAll_mon]

theorem manage_linkedBy (h : s.LinkedBy l) (hc : s.Consistent)
    (hfuel : ∀ i < s.monCount, (s.mon i).clients.length < fuel) {w : Window}
    (hw : w ∉ s.managed) (x : WindowInfo) :
    (s.manage w x).LinkedBy (l.manage s fuel w x) := by
  have hfresh : ∀ j < s.monCount, w ∉ (s.mon j).clients := fun j hj hmem =>
    hw (hc.mem_managed.2 (hc.manages hj hmem))
  have hplaced := newClient_placed hc x
  let base : Wm := { s with
    shown := Function.update s.shown w false
    netClientList := s.netClientList ++ [w] }
  have hbase : base.Consistent := { hc with }
  have hlinked : base.LinkedBy l := h.congr rfl (fun _ => rfl) fun _ => rfl
  have hin := enter_linkedBy (f := fun _ => s.newClient x) hlinked hbase
    hfresh hplaced.1 (hfuel _ hplaced.1)
  have henters := (attachBottom_enters (s := base)
    (f := fun _ => s.newClient x) hfresh hplaced.1 hplaced.2).select
  have hconsistent := hbase.enters henters
  have hwithin := entered_within (s := base) hfuel henters
  generalize hentered : ((base.modClient w fun _ => s.newClient
    x).attachBottom w).attachStack w = t at *
  have hselected := hin.modMon (s.newClient x).mon
    (f := fun m => { m with sel := some w }) (fun _ => rfl) fun _ => rfl
  have hquiet := arrange_quiet (t.modMon (s.newClient x).mon fun m =>
    { m with sel := some w }) (s.newClient x).mon
  have hfocus := focus_linkedBy (s := (t.modMon (s.newClient x).mon fun m =>
      { m with sel := some w }).arrange (s.newClient x).mon)
    (hselected.congr rfl (fun _ => rfl) fun _ => rfl)
    (hconsistent.ordinary hquiet.ordinary) hwithin noTarget
  rw [← hentered] at hfocus
  exact hfocus

/-- Whatever manages, moves or forgets a client leaves links that spell its
lists, and no walk along them goes on for longer than the lists are. -/
theorem lists_linkedBy (h : s.LinkedBy l) (hc : s.Consistent)
    (hfuel : ∀ i < s.monCount, (s.mon i).clients.length < fuel) :
    (∀ w x, w ∉ s.managed →
        (s.manage w x).LinkedBy (l.manage s fuel w x)) ∧
      (∀ c, s.Manages c → (s.unmanage c).LinkedBy (l.unmanage s fuel c)) ∧
      (∀ c, s.Manages c → ∀ i < s.monCount,
        (s.sendMon c i).LinkedBy (l.sendMon s fuel c i)) ∧
      (∀ c, s.Manages c → (s.pop c).LinkedBy (l.pop s fuel c)) ∧
      ∀ target, (∀ c, target = some c → s.Manages c) →
        (s.focus target).LinkedBy (l.focus s fuel target) := by
  have hwithin : s.Within fuel := fun i hi => Nat.le_of_lt (hfuel i hi)
  refine ⟨fun w x hw => ?_, fun c hmanages => ?_, fun c hmanages i hi => ?_,
    fun c hmanages => ?_, fun target htarget => ?_⟩
  · exact manage_linkedBy h hc hfuel hw x
  · exact unmanage_linkedBy h hc hwithin hmanages
  · exact sendMon_linkedBy h hc hfuel hmanages hi
  · exact pop_linkedBy h hc hwithin hmanages
  · exact focus_linkedBy h hc hwithin htarget

/-- A window comes to two others. -/
theorem lists_linkedBy_third :
    let s := machine.after
      (setup 20 ⟨100, 90, some (⟨0, 0, 100, 90⟩, []), none⟩)
      [.mapRequest 1 {}, .mapRequest 2 {}]
    (s.manage 3 {}).LinkedBy (twoLinks.manage s 3 3 {}) := by
  intro s
  have htidy : s.Tidy := (always_tidy (setup_tidy _ _) _).last
  have hcount : s.monCount = 1 := by decide +kernel
  have hclients : (s.mon 0).clients = [1, 2] := by decide +kernel
  have hstack : (s.mon 0).stack = [2, 1] := by decide +kernel
  have hnew : 3 ∉ s.managed := by decide +kernel
  clear_value s
  have hfuel : ∀ i < s.monCount, (s.mon i).clients.length < 3 := by
    intro i hi
    obtain rfl : i = 0 := by omega
    rw [hclients]
    decide
  have hlinked := twoLinks_linkedBy hcount hclients hstack
  exact (lists_linkedBy hlinked htidy.consistent hfuel).1 3 {} hnew

end Moves

end Wm

end Dwm

end Bodhi
