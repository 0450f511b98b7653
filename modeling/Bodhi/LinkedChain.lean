/-
Lists whose cells are linked by one field: what the links spell, what a write
to a single link does to it, and the walks along the links.
-/
import Mathlib.Logic.Equiv.Basic
import Bodhi.ListRing

namespace Bodhi

universe u v

variable {ι : Type u} {α : Type v}

/-- The links lead from `start` through the cells of the list to `stop`. -/
def Leads (next : α → Option α) : Option α → List α → Option α → Prop
  | start, [], stop => start = stop
  | start, x :: xs, stop => start = some x ∧ Leads next (next x) xs stop

section Leads

variable {next : α → Option α}

theorem Leads.append {xs ys : List α} {start mid stop : Option α}
    (hxs : Leads next start xs mid) (hys : Leads next mid ys stop) :
    Leads next start (xs ++ ys) stop := by
  induction xs generalizing start with
  | nil =>
      obtain rfl : start = mid := hxs
      exact hys
  | cons x xs ih => exact ⟨hxs.1, ih hxs.2⟩

theorem Leads.split {xs ys : List α} {start stop : Option α}
    (h : Leads next start (xs ++ ys) stop) :
    ∃ mid, Leads next start xs mid ∧ Leads next mid ys stop := by
  induction xs generalizing start with
  | nil => exact ⟨start, rfl, h⟩
  | cons x xs ih =>
      obtain ⟨mid, hxs, hys⟩ := ih h.2
      exact ⟨mid, ⟨h.1, hxs⟩, hys⟩

theorem Leads.congr {next' : α → Option α} {xs : List α}
    (hsame : ∀ x ∈ xs, next' x = next x) {start stop : Option α}
    (h : Leads next start xs stop) : Leads next' start xs stop := by
  induction xs generalizing start with
  | nil => exact h
  | cons x xs ih =>
      refine ⟨h.1, ?_⟩
      rw [hsame x List.mem_cons_self]
      exact ih (fun y hy => hsame y (List.mem_cons_of_mem x hy)) h.2

/-- A chain that is renamed cell by cell. -/
theorem Leads.map {next' : α → Option α} {f : α → α} {xs : List α}
    (hlink : ∀ x ∈ xs, next' (f x) = (next x).map f) {start : Option α}
    (h : Leads next start xs none) :
    Leads next' (start.map f) (xs.map f) none := by
  induction xs generalizing start with
  | nil =>
      obtain rfl : start = none := h
      rfl
  | cons x xs ih =>
      refine ⟨by rw [h.1]; rfl, ?_⟩
      rw [hlink x List.mem_cons_self]
      exact ih (fun y hy => hlink y (List.mem_cons_of_mem x hy)) h.2

theorem Leads.head {xs : List α} {start : Option α} {x : α}
    (h : Leads next start xs none) (hx : start = some x) :
    ∃ rest, xs = x :: rest := by
  cases xs with
  | nil => exact nomatch hx.symm.trans h
  | cons y rest =>
      obtain rfl : x = y := Option.some.inj (hx.symm.trans h.1)
      exact ⟨rest, rfl⟩

/-- The successor of a cell stands after the first cell. -/
theorem Leads.next_mem {xs : List α} {start : Option α}
    (h : Leads next start xs none) {x z : α} (hx : x ∈ xs)
    (hz : next x = some z) : z ∈ xs.tail := by
  induction xs generalizing start with
  | nil => cases hx
  | cons y ys ih =>
      rcases List.mem_cons.1 hx with heq | hx
      · obtain ⟨rest, hrest⟩ := h.2.head (heq ▸ hz)
        rw [List.tail_cons, hrest]
        exact List.mem_cons_self
      · exact List.mem_of_mem_tail (ih h.2 hx)

theorem Leads.next_ne_self {xs : List α} (hxs : xs.Nodup)
    {start : Option α} (h : Leads next start xs none) {x : α} (hx : x ∈ xs) :
    next x ≠ some x := by
  induction xs generalizing start with
  | nil => cases hx
  | cons y ys ih =>
      obtain ⟨hy, hys⟩ := List.nodup_cons.1 hxs
      rcases List.mem_cons.1 hx with heq | hx
      · intro hself
        have hmem := h.next_mem List.mem_cons_self (heq ▸ hself)
        exact hy hmem
      · exact ih hys h.2 hx

/-- No two cells of a chain without repetition have the same successor. -/
theorem Leads.next_inj {xs : List α} (hxs : xs.Nodup) {start : Option α}
    (h : Leads next start xs none) {x y z : α} (hx : x ∈ xs) (hy : y ∈ xs)
    (hxz : next x = some z) (hyz : next y = some z) : x = y := by
  induction xs generalizing start with
  | nil => cases hx
  | cons w ws ih =>
      have hws := (List.nodup_cons.1 hxs).2
      have hlater : ∀ u ∈ ws, next w = some z → next u = some z → False := by
        intro u hu hwz huz
        obtain ⟨rest, hrest⟩ := h.2.head hwz
        have hz := h.2.next_mem hu huz
        rw [hrest, List.tail_cons] at hz
        rw [hrest] at hws
        exact (List.nodup_cons.1 hws).1 hz
      rcases List.mem_cons.1 hx with hxw | hxs'
      · rcases List.mem_cons.1 hy with hyw | hys'
        · exact hxw.trans hyw.symm
        · exact (hlater y hys' (hxw ▸ hxz) hyz).elim
      · rcases List.mem_cons.1 hy with hyw | hys'
        · exact (hlater x hxs' (hyw ▸ hyz) hxz).elim
        · exact ih hws h.2 hxs' hys'

end Leads

/-- Lists whose cells share one link field. -/
structure Linked (ι : Type u) (α : Type v) where
  head : ι → Option α
  next : α → Option α

/-- A place that holds a link: the head of a list or the field of a cell. -/
inductive Slot (ι : Type u) (α : Type v) where
  | head (i : ι)
  | next (x : α)

namespace Linked

section Slots

variable [DecidableEq ι] [DecidableEq α] (l : Linked ι α)

def read : Slot ι α → Option α
  | .head i => l.head i
  | .next x => l.next x

def write (slot : Slot ι α) (link : Option α) : Linked ι α :=
  match slot with
  | .head i => { l with head := Function.update l.head i link }
  | .next x => { l with next := Function.update l.next x link }

/-- The first slot from `slot` on that is empty or leads to a cell where the
walk stops. -/
def seek (stop : α → Bool) : Nat → Slot ι α → Slot ι α
  | 0, slot => slot
  | fuel + 1, slot =>
      match l.read slot with
      | none => slot
      | some x => if stop x then slot else seek stop fuel (.next x)

/-- The list with the head `i`. -/
def Spells (i : ι) (xs : List α) : Prop := Leads l.next (l.head i) xs none

/-- The slot at the end of a walk from `slot` through the cells. -/
def endSlot : Slot ι α → List α → Slot ι α
  | slot, [] => slot
  | _, x :: xs => endSlot (.next x) xs

omit [DecidableEq ι] [DecidableEq α] in
theorem endSlot_cons (slot : Slot ι α) (x : α) (xs : List α) :
    ∃ y ∈ x :: xs, endSlot slot (x :: xs) = .next y := by
  induction xs generalizing slot x with
  | nil => exact ⟨x, List.mem_cons_self, rfl⟩
  | cons z zs ih =>
      obtain ⟨y, hy, heq⟩ := ih (.next x) z
      exact ⟨y, List.mem_cons_of_mem x hy, heq⟩

variable {l}

theorem read_write_self (slot : Slot ι α) (link : Option α) :
    (l.write slot link).read slot = link := by
  cases slot with
  | head i => exact Function.update_self _ _ _
  | next x => exact Function.update_self _ _ _

theorem read_write_of_ne {slot : Slot ι α} (other : Slot ι α) (h : other ≠ slot)
    (link : Option α) : (l.write slot link).read other = l.read other := by
  cases slot with
  | head i =>
      cases other with
      | head j =>
          have hij : j ≠ i := fun heq => h (congrArg Slot.head heq)
          exact Function.update_of_ne hij _ _
      | next y => rfl
  | next x =>
      cases other with
      | head j => rfl
      | next y =>
          have hxy : y ≠ x := fun heq => h (congrArg Slot.next heq)
          exact Function.update_of_ne hxy _ _

/-- A list keeps its cells where neither its head nor one of its fields is
written. -/
theorem Spells.write {i : ι} {xs : List α} (h : l.Spells i xs)
    {slot : Slot ι α} (hhead : slot ≠ .head i)
    (hcells : ∀ x ∈ xs, slot ≠ .next x) (link : Option α) :
    (l.write slot link).Spells i xs := by
  have hstart : (l.write slot link).head i = l.head i :=
    read_write_of_ne (.head i) (Ne.symm hhead) link
  rw [Spells, hstart]
  apply Leads.congr _ h
  intro x hx
  exact read_write_of_ne (l := l) (.next x) (Ne.symm (hcells x hx)) link

theorem Spells.write_next {i : ι} {x : α} {xs : List α} (h : l.Spells i xs)
    (hx : x ∉ xs) (link : Option α) : (l.write (.next x) link).Spells i xs := by
  refine h.write ?_ ?_ link
  · exact fun heq => nomatch heq
  · rintro y hy ⟨⟩
    exact hx hy

theorem Spells.write_head {i j : ι} {xs : List α} (h : l.Spells i xs)
    (hij : i ≠ j) (link : Option α) : (l.write (.head j) link).Spells i xs := by
  refine h.write ?_ ?_ link
  · rintro ⟨⟩
    exact hij rfl
  · exact fun y _ heq => nomatch heq

omit [DecidableEq ι] [DecidableEq α] in
/-- The walk ends at the slot that leads to where it stops. -/
theorem seek_eq (slot : Slot ι α) {p : α → Bool} {xs : List α}
    {link : Option α} (h : Leads l.next (l.read slot) xs link)
    (hxs : ∀ x ∈ xs, p x = false) (hlink : ∀ x, link = some x → p x)
    {fuel : Nat} (hfuel : xs.length < fuel) :
    l.seek p fuel slot = endSlot slot xs := by
  induction fuel generalizing slot xs with
  | zero => exact absurd hfuel (Nat.not_lt_zero _)
  | succ fuel ih =>
      cases xs with
      | nil =>
          obtain rfl : l.read slot = link := h
          cases hread : l.read slot with
          | none => simp only [seek, hread, endSlot]
          | some x => simp only [seek, hread, endSlot, hlink x hread, if_true]
      | cons x xs =>
          have hx := hxs x List.mem_cons_self
          simp only [seek, h.1, hx, endSlot, Bool.false_eq_true, if_false]
          apply ih (.next x) h.2
          · exact fun y hy => hxs y (List.mem_cons_of_mem x hy)
          · rw [List.length_cons] at hfuel
            omega

/-- A write to the last slot of a walk changes where the walk leads. -/
theorem leads_write_end (slot : Slot ι α) {xs : List α} (hxs : xs.Nodup)
    {link : Option α} (hslot : ∀ x ∈ xs, slot ≠ .next x)
    (h : Leads l.next (l.read slot) xs link) (link' : Option α) :
    Leads (l.write (endSlot slot xs) link').next
      ((l.write (endSlot slot xs) link').read slot) xs link' := by
  induction xs generalizing slot with
  | nil => exact read_write_self slot link'
  | cons x xs ih =>
      obtain ⟨hx, hrest⟩ := List.nodup_cons.1 hxs
      have hnext : ∀ y ∈ xs, (.next x : Slot ι α) ≠ .next y := by
        rintro y hy ⟨⟩
        exact hx hy
      obtain ⟨y, hy, hend⟩ := endSlot_cons slot x xs
      have hne : slot ≠ endSlot slot (x :: xs) := hend ▸ hslot y hy
      refine ⟨(read_write_of_ne _ hne link').trans h.1, ?_⟩
      exact ih (.next x) hrest hnext h.2

end Slots

section Operations

variable [DecidableEq ι] [DecidableEq α]

/-- A cell in front of a list. -/
def push (l : Linked ι α) (i : ι) (x : α) : Linked ι α :=
  (l.write (.next x) (l.head i)).write (.head i) (some x)

/-- A cell at the end of a list. -/
def enqueue (l : Linked ι α) (fuel : Nat) (i : ι) (x : α) : Linked ι α :=
  let l := l.write (.next x) none
  l.write (l.seek (fun _ => false) fuel (.head i)) (some x)

/-- The slot that leads to a cell skips it. -/
def unlink (l : Linked ι α) (fuel : Nat) (i : ι) (x : α) : Linked ι α :=
  l.write (l.seek (· == x) fuel (.head i)) (l.next x)

variable {l : Linked ι α} {i j : ι} {x : α} {xs ys : List α}

theorem push_spells (h : l.Spells i xs) (hx : x ∉ xs) :
    (l.push i x).Spells i (x :: xs) := by
  have hhead : (l.push i x).head i = some x := read_write_self (.head i) _
  have hnext : (l.push i x).next x = l.head i := Function.update_self _ _ _
  refine ⟨hhead, ?_⟩
  rw [hnext]
  apply Leads.congr _ h
  intro y hy
  have hne : y ≠ x := fun heq => hx (heq ▸ hy)
  exact Function.update_of_ne hne _ _

theorem push_spells_of_ne (h : l.Spells j ys) (hij : j ≠ i) (hx : x ∉ ys) :
    (l.push i x).Spells j ys :=
  (h.write_next hx _).write_head hij _

omit [DecidableEq ι] [DecidableEq α] in
/-- Where a walk along one list ends no other list is touched. -/
theorem endSlot_head_ne (hij : j ≠ i) (hdisjoint : ∀ y ∈ xs, y ∉ ys) :
    endSlot (.head i) xs ≠ (.head j : Slot ι α) ∧
      ∀ y ∈ ys, endSlot (.head i) xs ≠ (.next y : Slot ι α) := by
  cases xs with
  | nil =>
      constructor
      · rintro ⟨⟩
        exact hij rfl
      · exact fun y _ heq => nomatch heq
  | cons x xs =>
      obtain ⟨z, hz, hend⟩ := endSlot_cons (.head i : Slot ι α) x xs
      rw [hend]
      constructor
      · exact fun heq => nomatch heq
      · rintro y hy ⟨⟩
        exact hdisjoint z hz hy

theorem enqueue_eq (h : l.Spells i xs) (hx : x ∉ xs) {fuel : Nat}
    (hfuel : xs.length < fuel) :
    l.enqueue fuel i x = (l.write (.next x) none).write
      (endSlot (.head i) xs) (some x) := by
  have hsame := h.write_next hx none
  have hend := seek_eq (.head i) (p := fun _ => false) hsame
    (fun _ _ => rfl) (fun _ heq => nomatch heq) hfuel
  rw [enqueue, hend]

theorem enqueue_spells (h : l.Spells i xs) (hxs : xs.Nodup) (hx : x ∉ xs)
    {fuel : Nat} (hfuel : xs.length < fuel) :
    (l.enqueue fuel i x).Spells i (xs ++ [x]) := by
  rw [enqueue_eq h hx hfuel]
  have hsame := h.write_next hx none
  have hwalk := leads_write_end (.head i) hxs
    (fun _ _ heq => nomatch heq) hsame (some x)
  refine hwalk.append ⟨rfl, ?_⟩
  have hne : (.next x : Slot ι α) ≠ endSlot (.head i) xs := by
    cases xs with
    | nil => exact fun heq => nomatch heq
    | cons y ys =>
        obtain ⟨z, hz, hend⟩ := endSlot_cons (.head i : Slot ι α) y ys
        rw [hend]
        rintro ⟨⟩
        exact hx hz
  exact (read_write_of_ne _ hne _).trans (read_write_self (.next x) none)

theorem enqueue_spells_of_ne (h : l.Spells i xs) (hother : l.Spells j ys)
    (hij : j ≠ i) (hdisjoint : ∀ y ∈ xs, y ∉ ys) (hx : x ∉ xs) (hxy : x ∉ ys)
    {fuel : Nat} (hfuel : xs.length < fuel) :
    (l.enqueue fuel i x).Spells j ys := by
  rw [enqueue_eq h hx hfuel]
  obtain ⟨hhead, hcells⟩ := endSlot_head_ne (ι := ι) hij hdisjoint
  exact (hother.write_next hxy none).write hhead hcells _

theorem unlink_eq (h : l.Spells i (xs ++ x :: ys)) (hx : x ∉ xs) {fuel : Nat}
    (hfuel : xs.length < fuel) :
    l.unlink fuel i x = l.write (endSlot (.head i) xs) (l.next x) := by
  obtain ⟨link, hwalk, hrest⟩ := h.split
  have hlink : ∀ y, link = some y → (y == x) = true := by
    intro y hy
    have hxy : y = x := Option.some.inj (hy.symm.trans hrest.1)
    simpa using hxy
  have hbefore : ∀ y ∈ xs, (y == x) = false := by
    intro y hy
    have hne : y ≠ x := fun heq => hx (heq ▸ hy)
    simpa using hne
  rw [unlink, seek_eq (.head i) hwalk hbefore hlink hfuel]

theorem unlink_spells (h : l.Spells i xs) (hxs : xs.Nodup) (hx : x ∈ xs)
    {fuel : Nat} (hfuel : xs.length ≤ fuel) :
    (l.unlink fuel i x).Spells i (xs.erase x) := by
  obtain ⟨before, after, rfl⟩ := List.append_of_mem hx
  obtain ⟨hbefore, hlater, hapart⟩ := List.nodup_append.1 hxs
  have hnot : x ∉ before := fun hmem =>
    hapart x hmem x List.mem_cons_self rfl
  have hlen : before.length < fuel := by
    rw [List.length_append, List.length_cons] at hfuel
    omega
  rw [List.erase_append_right _ hnot, List.erase_cons_head,
    unlink_eq h hnot hlen]
  obtain ⟨link, hwalk, _, hrest⟩ := h.split
  have hfront := leads_write_end (.head i) hbefore
    (fun _ _ heq => nomatch heq) hwalk (l.next x)
  apply hfront.append
  apply Leads.congr _ hrest
  intro y hy
  refine read_write_of_ne (l := l) (.next y) ?_ _
  cases before with
  | nil => exact fun heq => nomatch heq
  | cons z zs =>
      obtain ⟨w, hw, hend⟩ := endSlot_cons (.head i : Slot ι α) z zs
      rw [hend]
      rintro ⟨⟩
      exact hapart y hw y (List.mem_cons_of_mem x hy) rfl

theorem unlink_spells_of_ne (h : l.Spells i xs) (hother : l.Spells j ys)
    (hij : j ≠ i) (hdisjoint : ∀ y ∈ xs, y ∉ ys) (hxs : xs.Nodup)
    (hx : x ∈ xs) {fuel : Nat} (hfuel : xs.length ≤ fuel) :
    (l.unlink fuel i x).Spells j ys := by
  obtain ⟨before, after, rfl⟩ := List.append_of_mem hx
  have hnot : x ∉ before := fun hmem =>
    (List.nodup_append.1 hxs).2.2 x hmem x List.mem_cons_self rfl
  have hlen : before.length < fuel := by
    rw [List.length_append, List.length_cons] at hfuel
    omega
  rw [unlink_eq h hnot hlen]
  obtain ⟨hhead, hcells⟩ := endSlot_head_ne (ι := ι) hij
    fun y hy => hdisjoint y (List.mem_append_left _ hy)
  exact hother.write hhead hcells _

end Operations

end Linked

section Walks

variable {next : α → Option α}

/-- The first cell from `start` on that has the property. -/
def firstFrom (next : α → Option α) (p : α → Bool) :
    Nat → Option α → Option α
  | fuel + 1, some x => if p x then some x else firstFrom next p fuel (next x)
  | _, _ => none

theorem firstFrom_eq {p : α → Bool} {xs : List α} {start : Option α}
    (h : Leads next start xs none) {fuel : Nat} (hfuel : xs.length ≤ fuel) :
    firstFrom next p fuel start = xs.find? p := by
  induction xs generalizing start fuel with
  | nil =>
      obtain rfl : start = none := h
      cases fuel <;> rfl
  | cons x xs ih =>
      cases fuel with
      | zero => exact absurd hfuel (Nat.not_succ_le_zero _)
      | succ fuel =>
          rw [h.1, List.find?_cons]
          simp only [firstFrom]
          split
          · next hp => rw [hp]
          · next hp =>
              rw [Bool.eq_false_of_not_eq_true hp]
              exact ih h.2 (Nat.le_of_succ_le_succ hfuel)

/-- The walk from `i` to `stop` that keeps the last cell with the property. -/
def lastUntil [DecidableEq α] (next : α → Option α) (p : α → Bool)
    (stop : Option α) : Nat → Option α → Option α → Option α × Option α
  | 0, i, c => (i, c)
  | fuel + 1, i, c =>
      if i = stop then (i, c)
      else
        match i with
        | none => (none, c)
        | some x => lastUntil next p stop fuel (next x) (if p x then some x else c)

theorem lastUntil_eq [DecidableEq α] {p : α → Bool} {xs : List α}
    {start stop c : Option α} (h : Leads next start xs stop)
    (hstop : ∀ x ∈ xs, some x ≠ stop) {fuel : Nat} (hfuel : xs.length < fuel) :
    lastUntil next p stop fuel start c = (stop, (lastThat p xs).or c) := by
  induction xs generalizing start fuel c with
  | nil =>
      obtain rfl : start = stop := h
      cases fuel with
      | zero => exact absurd hfuel (Nat.not_lt_zero _)
      | succ fuel =>
          simp [lastUntil, lastThat]
  | cons x xs ih =>
      cases fuel with
      | zero => exact absurd hfuel (Nat.not_lt_zero _)
      | succ fuel =>
          have hx := hstop x List.mem_cons_self
          have hrest := ih (c := if p x then some x else c) h.2
            (fun y hy => hstop y (List.mem_cons_of_mem x hy))
            (Nat.lt_of_succ_lt_succ hfuel)
          rw [h.1, lastUntil, if_neg hx, hrest, lastThat_cons]
          split <;> cases lastThat p xs <;> rfl

end Walks

end Bodhi
