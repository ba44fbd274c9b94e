import Mathlib.Data.List.Nodup
import Mathlib.Data.List.Perm.Basic
import Mathlib.Logic.Function.Basic

/-!
# Intrusive lists

A list head is two pointers, and a circular list is a list head whose successors lead back to it.
Nothing but the pointers is there, so a list of elements is a predicate on them (`Links.Ring`). The
operations are the assignments of `core/fw_list.h`, one after the other, on a pair of functions from
addresses to addresses; the type of addresses is arbitrary.

Of each operation two things are proved. On the list it is about it does what its name says: an
insertion behind the head makes the list one element longer, `list_del` takes out one element. And
every list that has no list head in common with that one stays as it is (the lemmas that end in
`_apart`), so that several lists in one memory can be followed at once.

The list of the elements is nowhere in the memory. It is what the abstract side of a refinement
talks about.
-/

variable {α : Type*}

/-- The pointers of all list heads: where `next` and `prev` of each address point. -/
structure Links (α : Type*) where
  /-- the successor of a list head -/
  next : α → α
  /-- the predecessor of a list head -/
  prev : α → α

namespace Links

section Operations

variable [DecidableEq α]

/-- `a->next = b` -/
def setNext (a b : α) (l : Links α) : Links α := { l with next := Function.update l.next a b }

/-- `a->prev = b` -/
def setPrev (a b : α) (l : Links α) : Links α := { l with prev := Function.update l.prev a b }

/-- `INIT_LIST_HEAD` -/
def initListHead (list : α) (l : Links α) : Links α := (l.setNext list list).setPrev list list

/-- `__list_add`: the four assignments that put `new` between two list heads. -/
def _listAdd (new prev next : α) (l : Links α) : Links α :=
  (((l.setPrev next new).setNext new next).setPrev new prev).setNext prev new

/-- `list_add` -/
def listAdd (new head : α) (l : Links α) : Links α := l._listAdd new head (l.next head)

/-- `list_add_tail` -/
def listAddTail (new head : α) (l : Links α) : Links α := l._listAdd new (l.prev head) head

/-- `__list_del` -/
def _listDel (prev next : α) (l : Links α) : Links α := (l.setPrev next prev).setNext prev next

/-- `list_del`, which leaves the entry with the pointers `LIST_POISON1` and `LIST_POISON2`. Nothing
is checked: an entry that is in no list makes it write through whatever its pointers are. -/
def listDel (poison₁ poison₂ entry : α) (l : Links α) : Links α :=
  ((l._listDel (l.prev entry) (l.next entry)).setNext entry poison₁).setPrev entry poison₂

/-- `list_empty` -/
def listEmpty (head : α) (l : Links α) : Bool := decide (l.next head = head)

/-- `list_for_each_entry` from `pos` on, with a body that returns the first entry with `p`, and at
most so many rounds of it. `none` is a loop that was cut off, `some none` one that came back to the
head. -/
def listFindFrom (l : Links α) (head : α) (p : α → Bool) : ℕ → α → Option (Option α)
  | 0, _ => none
  | n + 1, pos =>
    if pos = head then some none
    else if p pos then some (some pos)
    else l.listFindFrom head p n (l.next pos)

end Operations

/-! ## Lists -/

/-- The pointers lead from one list head over some others to another one, and back. The two ends may
be the same list head, which makes it a circle. -/
def Linked (l : Links α) : α → List α → α → Prop
  | a, [], b => l.next a = b ∧ l.prev b = a
  | a, x :: xs, b => (l.next a = x ∧ l.prev x = a) ∧ l.Linked x xs b

/-- A circular list and its elements: from the head through all of them and back, in both
directions, and no list head twice. -/
structure Ring (l : Links α) (head : α) (xs : List α) : Prop where
  /-- the list heads are distinct -/
  nodup : (head :: xs).Nodup
  /-- the pointers lead once around -/
  linked : l.Linked head xs head

/-- Only the pointers between the ends matter: `next` of all but the last, and `prev` of all but the
first. -/
theorem Linked.congr {l l' : Links α} {a b : α} {xs : List α} (h : l.Linked a xs b)
    (hnext : ∀ x ∈ a :: xs, l'.next x = l.next x) (hprev : ∀ x ∈ xs ++ [b], l'.prev x = l.prev x) :
    l'.Linked a xs b := by
  induction xs generalizing a with
  | nil =>
    obtain ⟨h₁, h₂⟩ := h
    exact ⟨(hnext a List.mem_cons_self).trans h₁, (hprev b List.mem_cons_self).trans h₂⟩
  | cons x xs ih =>
    obtain ⟨⟨h₁, h₂⟩, h⟩ := h
    exact ⟨⟨(hnext a List.mem_cons_self).trans h₁, (hprev x List.mem_cons_self).trans h₂⟩,
      ih h (fun y hy => hnext y (List.mem_cons_of_mem _ hy))
        fun y hy => hprev y (List.mem_cons_of_mem _ hy)⟩

/-- A list whose pointers stay is still there, whatever else was written to. -/
theorem Ring.congr {l l' : Links α} {head : α} {xs : List α} (h : l.Ring head xs)
    (hsame : ∀ x ∈ head :: xs, l'.next x = l.next x ∧ l'.prev x = l.prev x) : l'.Ring head xs := by
  refine ⟨h.nodup, h.linked.congr (fun x hx => (hsame x hx).1) fun x hx => ?_⟩
  rcases List.mem_append.mp hx with hx | hx
  · exact (hsame x (List.mem_cons_of_mem _ hx)).2
  · rw [List.mem_singleton.mp hx]
    exact (hsame head List.mem_cons_self).2

/-- The first list head of a path. -/
theorem Linked.next_eq {l : Links α} {a b : α} {xs : List α} (h : l.Linked a xs b) :
    l.next a = xs.headD b := by
  cases xs with
  | nil => exact h.1
  | cons x xs => exact h.1.1

theorem Ring.next_mem {l : Links α} {head : α} {xs : List α} (h : l.Ring head xs) :
    l.next head ∈ head :: xs := by
  rw [h.linked.next_eq]
  cases xs with
  | nil => exact List.mem_cons_self
  | cons x xs => exact List.mem_cons_of_mem _ List.mem_cons_self

/-- The last list head of a path. -/
theorem Linked.prev_eq {l : Links α} {a b : α} {xs : List α} (h : l.Linked a xs b) :
    l.prev b = xs.getLastD a := by
  induction xs generalizing a with
  | nil => exact h.2
  | cons x xs ih => rw [ih h.2, List.getLastD_cons]

theorem Linked.prev_mem {l : Links α} {a b : α} {xs : List α} (h : l.Linked a xs b) :
    l.prev b ∈ a :: xs := by
  rw [h.prev_eq, List.getLastD_eq_getLast?]
  cases hlast : xs.getLast? with
  | none => exact List.mem_cons_self
  | some x => exact List.mem_cons_of_mem _ (List.mem_of_getLast? hlast)

/-- A path through a list head is a path up to it and another one from there on. This is how an
element in the middle of a list is reached. -/
theorem linked_append {l : Links α} {a b x : α} {xs ys : List α} :
    l.Linked a (xs ++ x :: ys) b ↔ l.Linked a xs x ∧ l.Linked x ys b := by
  induction xs generalizing a with
  | nil => exact Iff.rfl
  | cons y xs ih => exact (and_congr_right fun _ => ih).trans and_assoc.symm

/-- The last element is behind the head. -/
theorem Ring.prev_eq {l : Links α} {head : α} {xs : List α} (h : l.Ring head xs) :
    l.prev head = xs.getLastD head := h.linked.prev_eq

theorem Ring.prev_mem {l : Links α} {head : α} {xs : List α} (h : l.Ring head xs) :
    l.prev head ∈ head :: xs := h.linked.prev_mem

/-- What is behind an element, or in front of it, is in the list or is the head. -/
theorem Ring.next_mem_of {l : Links α} {head x : α} {xs : List α} (h : l.Ring head xs)
    (hx : x ∈ head :: xs) : l.next x ∈ head :: xs := by
  rcases List.mem_cons.mp hx with rfl | hx
  · exact h.next_mem
  obtain ⟨pre, post, rfl⟩ := List.append_of_mem hx
  rw [(linked_append.mp h.linked).2.next_eq]
  cases post with
  | nil => exact List.mem_cons_self
  | cons y ys => simp

theorem Ring.prev_mem_of {l : Links α} {head x : α} {xs : List α} (h : l.Ring head xs)
    (hx : x ∈ head :: xs) : l.prev x ∈ head :: xs := by
  rcases List.mem_cons.mp hx with rfl | hx
  · exact h.prev_mem
  obtain ⟨pre, post, rfl⟩ := List.append_of_mem hx
  rcases List.mem_cons.mp (linked_append.mp h.linked).1.prev_mem with hmem | hmem
  · exact hmem ▸ List.mem_cons_self
  · exact List.mem_cons_of_mem _ (List.mem_append_left _ hmem)

/-- Elements that are numbered from 0 on are no more than the numbers. It bounds the rounds of a
loop over entries that were allocated one after the other. -/
theorem length_le_of_lt {ids : List ℕ} {n : ℕ} (h : ids.Nodup) (hlt : ∀ id ∈ ids, id < n) :
    ids.length ≤ n := by
  have hsub := List.subperm_of_subset h fun id hid => List.mem_range.mpr (hlt id hid)
  rw [← List.length_range (n := n)]
  exact hsub.length_le

section Operations

variable [DecidableEq α] {l : Links α} {new head a b x : α} {xs : List α}

/-! ## The operations

Each of them writes to three list heads, and a list that has none of these is left alone. What
becomes of the list that it is for is said with the list of its elements. -/

theorem initListHead_of_ne (h : x ≠ a) :
    (l.initListHead a).next x = l.next x ∧ (l.initListHead a).prev x = l.prev x :=
  ⟨Function.update_of_ne h _ _, Function.update_of_ne h _ _⟩

/-- `INIT_LIST_HEAD` makes an empty list. -/
theorem ring_initListHead (a : α) (l : Links α) : (l.initListHead a).Ring a [] :=
  ⟨List.nodup_singleton a, Function.update_self .., Function.update_self ..⟩

/-- It leaves a list alone that the list head is not in. -/
theorem Ring.initListHead_apart (h : l.Ring head xs) (ha : a ∉ head :: xs) :
    (l.initListHead a).Ring head xs :=
  h.congr fun _ hx => initListHead_of_ne (ne_of_mem_of_not_mem hx ha)

theorem listAdd_next : (l.listAdd new head).next x =
    if x = head then new else if x = new then l.next head else l.next x := by
  simp only [listAdd, _listAdd, setNext, setPrev, Function.update_apply]

theorem listAdd_prev : (l.listAdd new head).prev x =
    if x = new then head else if x = l.next head then new else l.prev x := by
  simp only [listAdd, _listAdd, setNext, setPrev, Function.update_apply]

/-- `list_add` writes to three list heads, and leaves every other one alone. -/
theorem listAdd_of_ne (hnew : x ≠ new) (hhead : x ≠ head) (hnext : x ≠ l.next head) :
    (l.listAdd new head).next x = l.next x ∧ (l.listAdd new head).prev x = l.prev x := by
  rw [listAdd_next, listAdd_prev, if_neg hhead, if_neg hnew, if_neg hnew, if_neg hnext]
  exact ⟨rfl, rfl⟩

/-- `list_add` inserts behind the head, when the new list head is not in the list yet. Both ways
round the list go through the new element next to the head, and the links further on are not written
to. -/
theorem Ring.listAdd (h : l.Ring head xs) (hnew : new ∉ head :: xs) :
    (l.listAdd new head).Ring head (new :: xs) := by
  obtain ⟨hne, hxs⟩ := not_or.mp (mt List.mem_cons.mpr hnew)
  obtain ⟨hhead, hnodup⟩ := List.nodup_cons.mp h.nodup
  refine ⟨?_, ⟨?_, ?_⟩, ?_⟩
  · exact List.nodup_cons.mpr ⟨by simp [Ne.symm hne, hhead], List.nodup_cons.mpr ⟨hxs, hnodup⟩⟩
  · rw [listAdd_next, if_pos rfl]
  · rw [listAdd_prev, if_pos rfl]
  · -- from the new element on, only its own pointer and the one back to it have changed
    cases xs with
    | nil =>
      have hnext : l.next head = head := h.linked.1
      refine ⟨?_, ?_⟩
      · rw [listAdd_next, if_neg hne, if_pos rfl, hnext]
      · rw [listAdd_prev, if_neg (Ne.symm hne), if_pos hnext.symm]
    | cons y ys =>
      have hnext : l.next head = y := h.linked.1.1
      obtain ⟨hy, -⟩ := List.nodup_cons.mp hnodup
      obtain ⟨hne', hys⟩ := not_or.mp (mt List.mem_cons.mpr hxs)
      obtain ⟨hhy, hhys⟩ := not_or.mp (mt List.mem_cons.mpr hhead)
      refine ⟨⟨?_, ?_⟩, h.linked.2.congr (fun x hx => ?_) fun x hx => ?_⟩
      · rw [listAdd_next, if_neg hne, if_pos rfl, hnext]
      · rw [listAdd_prev, if_neg (Ne.symm hne'), if_pos hnext.symm]
      · rw [listAdd_next, if_neg (ne_of_mem_of_not_mem hx hhead),
          if_neg (ne_of_mem_of_not_mem hx hxs)]
      · have hx' : x ≠ new ∧ x ≠ y := by
          rcases List.mem_append.mp hx with hx | hx
          · exact ⟨ne_of_mem_of_not_mem hx hys, ne_of_mem_of_not_mem hx hy⟩
          · rw [List.mem_singleton.mp hx]
            exact ⟨Ne.symm hne, hhy⟩
        rw [listAdd_prev, if_neg hx'.1, hnext, if_neg hx'.2]

/-- `list_add` leaves another list alone, when the two share no list head and the new one is in
neither. -/
theorem Ring.listAdd_apart {head' : α} {ys : List α} (h : l.Ring head xs) (h' : l.Ring head' ys)
    (hnew : new ∉ head' :: ys) (hapart : ∀ x ∈ head' :: ys, x ∉ head :: xs) :
    (l.listAdd new head).Ring head' ys :=
  h'.congr fun x hx => listAdd_of_ne (ne_of_mem_of_not_mem hx hnew)
    (fun e => hapart x hx (e ▸ List.mem_cons_self)) fun e => hapart x hx (e ▸ h.next_mem)

theorem listAddTail_next : (l.listAddTail new head).next x =
    if x = l.prev head then new else if x = new then head else l.next x := by
  simp only [listAddTail, _listAdd, setNext, setPrev, Function.update_apply]

theorem listAddTail_prev : (l.listAddTail new head).prev x =
    if x = new then l.prev head else if x = head then new else l.prev x := by
  simp only [listAddTail, _listAdd, setNext, setPrev, Function.update_apply]

/-- `list_add_tail` writes to three list heads, and leaves every other one alone. -/
theorem listAddTail_of_ne (hnew : x ≠ new) (hhead : x ≠ head) (hprev : x ≠ l.prev head) :
    (l.listAddTail new head).next x = l.next x ∧ (l.listAddTail new head).prev x = l.prev x := by
  rw [listAddTail_next, listAddTail_prev, if_neg hprev, if_neg hnew, if_neg hnew, if_neg hhead]
  exact ⟨rfl, rfl⟩

/-- A path to the head gets one element longer, at its end. By induction on the path: only its last
step, where the source looks for `head->prev`, is changed. -/
theorem Linked.listAddTail (h : l.Linked a xs head) (hnodup : (a :: xs).Nodup)
    (hhead : head ∉ xs) (hnew : new ∉ a :: xs) (hne : new ≠ head) :
    (l.listAddTail new head).Linked a (xs ++ [new]) head := by
  induction xs generalizing a with
  | nil =>
    obtain ⟨-, hprev⟩ := h
    have ha : new ≠ a := fun e => hnew (e ▸ List.mem_cons_self)
    refine ⟨⟨?_, ?_⟩, ?_, ?_⟩
    · rw [listAddTail_next, if_pos hprev.symm]
    · rw [listAddTail_prev, if_pos rfl, hprev]
    · rw [listAddTail_next, hprev, if_neg ha, if_pos rfl]
    · rw [listAddTail_prev, if_neg hne.symm, if_pos rfl]
  | cons y ys ih =>
    obtain ⟨⟨hy, hya⟩, h⟩ := h
    obtain ⟨ha, hnodup⟩ := List.nodup_cons.mp hnodup
    obtain ⟨hna, hnys⟩ := not_or.mp (mt List.mem_cons.mpr hnew)
    obtain ⟨hny, -⟩ := not_or.mp (mt List.mem_cons.mpr hnys)
    obtain ⟨hhy, hhys⟩ := not_or.mp (mt List.mem_cons.mpr hhead)
    refine ⟨⟨?_, ?_⟩, ih h hnodup hhys hnys⟩
    · rw [listAddTail_next, if_neg (ne_of_mem_of_not_mem h.prev_mem ha).symm,
        if_neg (Ne.symm hna), hy]
    · rw [listAddTail_prev, if_neg (Ne.symm hny), if_neg (Ne.symm hhy), hya]

/-- `list_add_tail` inserts in front of the head, that is at the end of the list. -/
theorem Ring.listAddTail (h : l.Ring head xs) (hnew : new ∉ head :: xs) :
    (l.listAddTail new head).Ring head (xs ++ [new]) := by
  obtain ⟨hne, hxs⟩ := not_or.mp (mt List.mem_cons.mpr hnew)
  refine ⟨?_, h.linked.listAddTail h.nodup (List.nodup_cons.mp h.nodup).1 hnew hne⟩
  rw [← List.cons_append]
  exact h.nodup.append (List.nodup_singleton new) (List.disjoint_singleton.mpr hnew)

/-- `list_add_tail` leaves another list alone, when the two share no list head. -/
theorem Ring.listAddTail_apart {head' : α} {ys : List α} (h : l.Ring head xs)
    (h' : l.Ring head' ys) (hnew : new ∉ head' :: ys)
    (hapart : ∀ x ∈ head' :: ys, x ∉ head :: xs) : (l.listAddTail new head).Ring head' ys :=
  h'.congr fun x hx => listAddTail_of_ne (ne_of_mem_of_not_mem hx hnew)
    (fun e => hapart x hx (e ▸ List.mem_cons_self)) fun e => hapart x hx (e ▸ h.prev_mem)

theorem listDel_next {p q : α} : (l.listDel p q x).next a =
    if a = x then p else if a = l.prev x then l.next x else l.next a := by
  simp only [listDel, _listDel, setNext, setPrev, Function.update_apply]

theorem listDel_prev {p q : α} : (l.listDel p q x).prev a =
    if a = x then q else if a = l.next x then l.prev x else l.prev a := by
  simp only [listDel, _listDel, setNext, setPrev, Function.update_apply]

/-- `list_del` writes to three list heads, and leaves every other one alone. -/
theorem listDel_of_ne {p q : α} (hentry : a ≠ x) (hprev : a ≠ l.prev x) (hnext : a ≠ l.next x) :
    (l.listDel p q x).next a = l.next a ∧ (l.listDel p q x).prev a = l.prev a := by
  rw [listDel_next, listDel_prev, if_neg hentry, if_neg hprev, if_neg hentry, if_neg hnext]
  exact ⟨rfl, rfl⟩

/-- A path gets one element shorter, wherever the element is. By induction on the part of the path
in front of it, as only the links of its two neighbours, and its own, are changed. -/
theorem Linked.listDel {p q : α} {pre post : List α} (h : l.Linked a (pre ++ x :: post) b)
    (hnodup : (a :: (pre ++ x :: post)).Nodup) (hb : b ∉ pre ++ x :: post) :
    (l.listDel p q x).Linked a (pre ++ post) b := by
  induction pre generalizing a with
  | nil =>
    obtain ⟨⟨-, hxa⟩, h⟩ := h
    obtain ⟨ha, hnodup⟩ := List.nodup_cons.mp hnodup
    obtain ⟨hax, hap⟩ := not_or.mp (mt List.mem_cons.mpr ha)
    obtain ⟨hbx, hbp⟩ := not_or.mp (mt List.mem_cons.mpr hb)
    obtain ⟨hx, hpost⟩ := List.nodup_cons.mp hnodup
    cases post with
    | nil =>
      refine ⟨?_, ?_⟩
      · rw [listDel_next, if_neg hax, if_pos hxa.symm, h.1]
      · rw [listDel_prev, if_neg hbx, if_pos h.1.symm, hxa]
    | cons y ys =>
      obtain ⟨⟨hy, hyx⟩, h⟩ := h
      obtain ⟨hys, -⟩ := List.nodup_cons.mp hpost
      obtain ⟨hxy, -⟩ := not_or.mp (mt List.mem_cons.mpr hx)
      refine ⟨⟨?_, ?_⟩, h.congr (fun z hz => ?_) fun z hz => ?_⟩
      · rw [listDel_next, if_neg hax, if_pos hxa.symm, hy]
      · rw [listDel_prev, if_neg (Ne.symm hxy), if_pos hy.symm, hxa]
      · rw [listDel_next, if_neg (ne_of_mem_of_not_mem hz hx), hxa,
          if_neg (ne_of_mem_of_not_mem hz hap)]
      · -- the element behind the deleted one is not in the rest of the path
        have hz' : z ≠ x ∧ z ≠ y := by
          rcases List.mem_append.mp hz with hz | hz
          · exact ⟨ne_of_mem_of_not_mem (List.mem_cons_of_mem _ hz) hx,
              ne_of_mem_of_not_mem hz hys⟩
          · rw [List.mem_singleton.mp hz]
            exact ⟨hbx, fun e => hbp (e ▸ List.mem_cons_self)⟩
        rw [listDel_prev, if_neg hz'.1, hy, if_neg hz'.2]
  | cons z pre ih =>
    obtain ⟨⟨hz, hza⟩, h⟩ := h
    obtain ⟨ha, hnodup⟩ := List.nodup_cons.mp hnodup
    obtain ⟨hbz, hb⟩ := not_or.mp (mt List.mem_cons.mpr hb)
    obtain ⟨hpre, hpost⟩ := linked_append.mp h
    have hprev : a ≠ l.prev x := by
      refine fun e => ha (e ▸ ?_)
      rcases List.mem_cons.mp hpre.prev_mem with hmem | hmem
      · exact hmem ▸ List.mem_cons_self
      · exact List.mem_cons_of_mem _ (List.mem_append_left _ hmem)
    have hnext : z ≠ l.next x := by
      rw [hpost.next_eq]
      cases post with
      | nil => exact Ne.symm hbz
      | cons y ys => exact fun e => (List.nodup_cons.mp hnodup).1 (by simp [e])
    refine ⟨⟨?_, ?_⟩, ih h hnodup hb⟩
    · rw [listDel_next, if_neg fun e => ha (by simp [e]), if_neg hprev, hz]
    · rw [listDel_prev, if_neg fun e => (List.nodup_cons.mp hnodup).1 (by simp [e]), if_neg hnext,
        hza]

/-- `list_del` takes an element out, wherever it is, and leaves the others in their order. -/
theorem Ring.listDel {p q : α} {pre post : List α} (h : l.Ring head (pre ++ x :: post)) :
    (l.listDel p q x).Ring head (pre ++ post) := by
  have hsub : (pre ++ post).Sublist (pre ++ x :: post) :=
    (List.sublist_cons_self x post).append_left pre
  exact ⟨h.nodup.sublist (hsub.cons_cons head),
    h.linked.listDel h.nodup (List.nodup_cons.mp h.nodup).1⟩

/-- `list_del` leaves another list alone that shares no list head with the one the element is in. -/
theorem Ring.listDel_apart {p q head' : α} {pre post ys : List α}
    (h : l.Ring head (pre ++ x :: post)) (h' : l.Ring head' ys)
    (hapart : ∀ y ∈ head' :: ys, y ∉ head :: (pre ++ x :: post)) :
    (l.listDel p q x).Ring head' ys := by
  obtain ⟨hpre, hpost⟩ := linked_append.mp h.linked
  refine h'.congr fun y hy => listDel_of_ne ?_ ?_ ?_
  · exact fun e => hapart y hy (by simp [e])
  · refine fun e => hapart y hy (e ▸ ?_)
    rcases List.mem_cons.mp hpre.prev_mem with hmem | hmem
    · exact hmem ▸ List.mem_cons_self
    · exact List.mem_cons_of_mem _ (List.mem_append_left _ hmem)
  · refine fun e => hapart y hy (e ▸ ?_)
    rw [hpost.next_eq]
    cases post with
    | nil => exact List.mem_cons_self
    | cons z zs => simp

/-- `list_del` of the last element leaves the others in their order. -/
theorem Ring.listDel_last {p q : α} (h : l.Ring head xs) (hlast : xs.getLast? = some x) :
    (l.listDel p q x).Ring head xs.dropLast := by
  obtain ⟨xs, rfl⟩ := List.getLast?_eq_some_iff.mp hlast
  have hdel := h.listDel (p := p) (q := q)
  rw [List.append_nil] at hdel
  rwa [List.dropLast_concat]

theorem Ring.listDel_last_apart {p q head' : α} {ys : List α} (h : l.Ring head xs)
    (hlast : xs.getLast? = some x) (h' : l.Ring head' ys)
    (hapart : ∀ y ∈ head' :: ys, y ∉ head :: xs) : (l.listDel p q x).Ring head' ys := by
  obtain ⟨xs, rfl⟩ := List.getLast?_eq_some_iff.mp hlast
  exact h.listDel_apart h' hapart

/-- `list_empty` tells whether there are elements. -/
theorem Ring.listEmpty (h : l.Ring head xs) : l.listEmpty head = xs.isEmpty := by
  rw [Links.listEmpty, h.linked.next_eq]
  cases xs with
  | nil => exact decide_eq_true rfl
  | cons x xs =>
    exact decide_eq_false fun e => (List.nodup_cons.mp h.nodup).1 (e ▸ List.mem_cons_self)

/-- The loop finds the first element with `p`, by induction on the path, when there are more rounds
than elements. -/
theorem Linked.listFindFrom {p : α → Bool} (h : l.Linked a xs head) (hhead : head ∉ xs) {n : ℕ}
    (hn : xs.length < n) : l.listFindFrom head p n (l.next a) = some (xs.find? p) := by
  induction xs generalizing a n with
  | nil =>
    obtain ⟨n, rfl⟩ := Nat.exists_eq_succ_of_ne_zero (Nat.ne_of_gt hn)
    rw [Links.listFindFrom, if_pos h.1, List.find?_nil]
  | cons y ys ih =>
    obtain ⟨n, rfl⟩ := Nat.exists_eq_succ_of_ne_zero (Nat.ne_of_gt (Nat.zero_lt_of_lt hn))
    obtain ⟨⟨hy, -⟩, h⟩ := h
    obtain ⟨hne, hys⟩ := not_or.mp (mt List.mem_cons.mpr hhead)
    rw [Links.listFindFrom, hy, if_neg (Ne.symm hne), List.find?_cons]
    cases hp : p y with
    | true => simp
    | false =>
      rw [if_neg Bool.false_ne_true]
      exact ih h hys (by simpa using hn)

/-- The loop over a list finds what a search of its elements finds, when its bound is above their
number. -/
theorem Ring.listFindFrom {p : α → Bool} (h : l.Ring head xs) {n : ℕ} (hn : xs.length < n) :
    l.listFindFrom head p n (l.next head) = some (xs.find? p) :=
  h.linked.listFindFrom (List.nodup_cons.mp h.nodup).1 hn

/-! ## Lists that are only read forwards

A loop that starts at the head and removes elements from the front never looks at `head->prev`. It
works on a circular list in which that one pointer is wrong, and the list heads behind it are as
they should be. -/

/-- A circular list, whatever `head->prev` is: with that pointer set right it would be one. -/
def Ahead (l : Links α) (head : α) (xs : List α) : Prop :=
  (l.setPrev head (xs.getLastD head)).Ring head xs

theorem setPrev_eq_self (h : l.prev a = b) : l.setPrev a b = l := by
  rw [setPrev, ← h, Function.update_eq_self]

theorem setPrev_of_ne (h : x ≠ a) : (l.setPrev a b).prev x = l.prev x := Function.update_of_ne h ..

theorem Ring.ahead (h : l.Ring head xs) : l.Ahead head xs := by
  rwa [Ahead, setPrev_eq_self h.prev_eq]

theorem Ahead.nodup (h : l.Ahead head xs) : (head :: xs).Nodup := Ring.nodup h

/-- The pointers that matter. -/
theorem Ahead.congr {l' : Links α} (h : l.Ahead head xs)
    (hnext : ∀ x ∈ head :: xs, l'.next x = l.next x) (hprev : ∀ x ∈ xs, l'.prev x = l.prev x) :
    l'.Ahead head xs := by
  refine Ring.congr h fun x hx => ⟨hnext x hx, ?_⟩
  rcases eq_or_ne x head with rfl | hne
  · simp only [setPrev, Function.update_self]
  · rw [setPrev_of_ne hne, setPrev_of_ne hne]
    exact hprev x (List.mem_of_ne_of_mem hne hx)

theorem Ahead.listEmpty (h : l.Ahead head xs) : l.listEmpty head = xs.isEmpty := by
  have hring : (l.setPrev head (xs.getLastD head)).Ring head xs := h
  exact hring.listEmpty

/-- The loop over such a list. -/
theorem Ahead.listFindFrom {p : α → Bool} (h : l.Ahead head xs) {n : ℕ} (hn : xs.length < n) :
    l.listFindFrom head p n (l.next head) = some (xs.find? p) := by
  have hsame (n : ℕ) (pos : α) : (l.setPrev head (xs.getLastD head)).listFindFrom head p n pos =
      l.listFindFrom head p n pos := by
    induction n generalizing pos with
    | zero => rfl
    | succ n ih =>
      rw [Links.listFindFrom, Links.listFindFrom, ih]
      rfl
  rw [← hsame]
  exact Ring.listFindFrom h hn

end Operations

end Links
