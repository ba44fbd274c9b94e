import FastWasm.LinkedList
import FastWasm.Ownership

/-!
# Lists that are taken apart

The list heads of an intrusive list lie in blocks. A destructor takes one element after the other
out of the list and frees the blocks that belong to it. There are two ways to go through the list:
ask each time for the first element, or remember the next one before the element goes away
(`list_for_each_entry_safe`). Either way the blocks of the elements are freed in order, and `Drains`
says that the log touches no list head of an element behind that. So it is `Tidy` when the elements
do not share blocks.

Which block a list head lies in is a partial function `owner`: an address without a block is one
that must not be followed, and a program that does so halts with the reason `fault`. Two more
parameters are the poison that `list_del` leaves behind, and the reason `fuel` of a loop that is cut
off. The theorems give the log of a whole loop, so that use after free, double free and leaks are
all statements about one list of events.

The second way looks at `head->next` only. It takes a list apart also when `head->prev` has been
overwritten, and is proved so (`dropWhile_run`).
-/

namespace Links

open Logged Ownership

variable {α β η : Type}

/-! ## The programs

Adding at the head, and dropping all elements from the front, with a use in the log for each list
head that is read or written to. -/

section Programs

variable [DecidableEq α] (owner : α → Option β) (blocks : α → List β) (p q : α) (fault fuel : η)

/-- An access to a list head, which lies in a block. Without one it halts. -/
def touch (a : α) : Logged (Use β) η (Links α) PUnit :=
  match owner a with
  | none => halt fault
  | some b => emit (.touch b 0)

/-- `INIT_LIST_HEAD` of a new list head, then `list_add`, with their accesses. -/
def add (new head : α) : Logged (Use β) η (Links α) PUnit := do
  touch owner fault new
  let l ← get
  set (l.initListHead new)
  touch owner fault head
  let l ← get
  touch owner fault (l.next head)
  touch owner fault new
  set (l.listAdd new head)

/-- `list_del`, with its accesses: to the entry and to the list heads on its two sides. -/
def del (entry : α) : Logged (Use β) η (Links α) PUnit := do
  touch owner fault entry
  let l ← get
  touch owner fault (l.next entry)
  touch owner fault (l.prev entry)
  set (l.listDel p q entry)

/-- An element is taken out, and its blocks are freed, in the order in which the destructor does it.
-/
def drop (entry : α) : Logged (Use β) η (Links α) PUnit := do
  del owner p q fault entry
  forEach (fun b => emit (.free b)) (blocks entry)

/-- `list_for_each_entry_safe` with `drop` as its body, at `pos` with `n` behind it: `n` was read
before `pos` went away. -/
def dropFrom (head : α) : ℕ → α → α → Logged (Use β) η (Links α) PUnit
  | 0, _, _ => halt fuel
  | rounds + 1, pos, n =>
    if pos = head then pure ⟨⟩
    else do
      drop owner blocks p q fault pos
      touch owner fault n
      let l ← get
      dropFrom head rounds n (l.next n)

/-- The whole loop, with a bound on its rounds. -/
def dropEach (rounds : ℕ) (head : α) : Logged (Use β) η (Links α) PUnit := do
  touch owner fault head
  let l ← get
  let pos := l.next head
  touch owner fault pos
  dropFrom owner blocks p q fault fuel head rounds pos (l.next pos)

/-- `while (!list_empty(head))` with `drop` of the first element as its body. -/
def dropWhile (head : α) : ℕ → Logged (Use β) η (Links α) PUnit
  | 0 => halt fuel
  | rounds + 1 => do
    touch owner fault head
    let l ← get
    if l.listEmpty head then pure ⟨⟩
    else do
      touch owner fault head
      drop owner blocks p q fault (l.next head)
      dropWhile head rounds

end Programs

/-! ## What they log

Uses of the blocks that the list heads lie in. -/

section Logs

variable {o : α → β} {blocks : α → List β} {head x : α} {xs : List α} {log : List (Use β)}

/-- A log in which the blocks of some elements are freed in order, and behind that no list head of
the element is touched. The head of the list may be touched at any time. -/
inductive Drains (o : α → β) (blocks : α → List β) (head : α) : List α → List (Use β) → Prop
  /-- only the head is left -/
  | nil {log : List (Use β)} (h : ∀ e ∈ log, e = .touch (o head) 0) : Drains o blocks head [] log
  /-- the first element goes away -/
  | cons {x : α} {xs : List α} {before behind rest : List (Use β)}
      (hbefore : ∀ e ∈ before, ∃ a ∈ head :: x :: xs, e = .touch (o a) 0)
      (hbehind : ∀ e ∈ behind, ∃ a ∈ head :: xs, e = .touch (o a) 0)
      (hrest : Drains o blocks head xs rest) :
      Drains o blocks head (x :: xs) (before ++ (blocks x).map .free ++ behind ++ rest)

/-- Touching frees nothing, in whatever order. -/
theorem freed_of_touches {S : List α} (h : ∀ e ∈ log, ∃ a ∈ S, e = .touch (o a) 0) :
    freed log = [] := by
  refine List.filterMap_eq_nil_iff.mpr fun e he => ?_
  obtain ⟨a, -, rfl⟩ := h e he
  rfl

theorem addr_of_touches {S : List α} (h : ∀ e ∈ log, ∃ a ∈ S, e = .touch (o a) 0) {e : Use β}
    (he : e ∈ log) : ∃ a ∈ S, e.addr = o a := by
  obtain ⟨a, ha, rfl⟩ := h e he
  exact ⟨a, ha, rfl⟩

/-- Touching is tidy, as nothing is freed. -/
theorem tidy_of_touches {S : List α} (h : ∀ e ∈ log, ∃ a ∈ S, e = .touch (o a) 0) : Tidy log :=
  tidy_of_nodup (by rw [freed_of_touches h]; exact List.nodup_nil) fun a j _ => by
    rw [freed_of_touches h]
    exact List.not_mem_nil

namespace Drains

/-- The blocks of the elements are freed, in order, and nothing else is. -/
theorem freed_eq (h : Drains o blocks head xs log) : freed log = xs.flatMap blocks := by
  induction h with
  | nil h => exact freed_of_touches (S := [head]) fun e he => ⟨head, List.mem_cons_self, h e he⟩
  | cons hbefore hbehind _ ih =>
    rw [freed_append, freed_append, freed_append, freed_of_touches hbefore,
      freed_of_touches hbehind, freed_map_free, ih, List.flatMap_cons]
    simp

/-- What is used is the list head, or belongs to an element: its own links, or one of the blocks
that it holds. No other list is looked at while this one is emptied. -/
theorem addr (h : Drains o blocks head xs log) {e : Use β} (he : e ∈ log) :
    e.addr = o head ∨ ∃ x ∈ xs, e.addr = o x ∨ e.addr ∈ blocks x := by
  induction h with
  | nil h => exact .inl (by rw [h e he]; rfl)
  | @cons x xs before behind rest hbefore hbehind _ ih =>
    -- the elements behind the first one are among all of them
    have hmono : ∀ a ∈ head :: xs, e.addr = o a →
        e.addr = o head ∨ ∃ y ∈ x :: xs, e.addr = o y ∨ e.addr ∈ blocks y := by
      intro a ha hea
      rcases List.mem_cons.mp ha with rfl | ha
      · exact .inl hea
      · exact .inr ⟨a, List.mem_cons_of_mem _ ha, .inl hea⟩
    simp only [List.mem_append] at he
    rcases he with ((he | he) | he) | he
    · obtain ⟨a, ha, hea⟩ := addr_of_touches hbefore he
      rcases List.mem_cons.mp ha with rfl | ha
      · exact .inl hea
      · exact .inr ⟨a, ha, .inl hea⟩
    · obtain ⟨b, hb, rfl⟩ := List.mem_map.mp he
      exact .inr ⟨x, List.mem_cons_self, .inr hb⟩
    · obtain ⟨a, ha, hea⟩ := addr_of_touches hbehind he
      exact hmono a ha hea
    · rcases ih he with hea | ⟨y, hy, hea⟩
      · exact .inl hea
      · exact .inr ⟨y, List.mem_cons_of_mem _ hy, hea⟩

/-- The log is tidy when no block belongs to two elements, and the head is in none of them: nothing
is used or freed again behind its `free`. -/
theorem tidy (h : Drains o blocks head xs log) (hnodup : xs.Nodup)
    (hblocks : (xs.flatMap blocks).Nodup) (hhead : ∀ x ∈ xs, o head ∉ blocks x)
    (howner : ∀ x ∈ xs, ∀ y ∈ xs, o y ∈ blocks x → x = y) : Tidy log := by
  induction h with
  | nil h => exact tidy_of_touches (S := [head]) fun e he => ⟨head, List.mem_cons_self, h e he⟩
  | @cons x xs before behind rest hbefore hbehind hrest ih =>
    obtain ⟨hx, hnodup⟩ := List.nodup_cons.mp hnodup
    rw [List.flatMap_cons, List.nodup_append] at hblocks
    obtain ⟨hbx, hbxs, hdisj⟩ := hblocks
    have htidy := ih hnodup hbxs (fun y hy => hhead y (List.mem_cons_of_mem _ hy))
      fun y hy z hz => howner y (List.mem_cons_of_mem _ hy) z (List.mem_cons_of_mem _ hz)
    -- nothing behind the blocks of `x` belongs to `x`
    have howner' : ∀ a ∈ head :: xs, o a ∉ blocks x := by
      intro a ha hmem
      rcases List.mem_cons.mp ha with rfl | ha
      · exact hhead x List.mem_cons_self hmem
      · have := howner x List.mem_cons_self a (List.mem_cons_of_mem _ ha) hmem
        exact hx (this ▸ ha)
    have hlater : ∀ a ∈ blocks x, ∀ e ∈ behind ++ rest, a ≠ e.addr := by
      rintro b hb e he rfl
      rcases List.mem_append.mp he with he | he
      · obtain ⟨a, ha, hea⟩ := addr_of_touches hbehind he
        exact howner' a ha (hea ▸ hb)
      · rcases hrest.addr he with hea | ⟨y, hy, hea | hey⟩
        · exact howner' head List.mem_cons_self (hea ▸ hb)
        · exact howner' y (List.mem_cons_of_mem _ hy) (hea ▸ hb)
        · exact hdisj _ hb _ (List.mem_flatMap.mpr ⟨y, hy, hey⟩) rfl
    have hfrees : Tidy ((blocks x).map Use.free) := tidy_of_nodup (by rwa [freed_map_free])
      fun a j hmem => by simp at hmem
    rw [List.append_assoc, List.append_assoc]
    refine tidy_append.mpr ⟨tidy_of_touches hbefore, tidy_append.mpr ⟨hfrees, ?_, ?_⟩, ?_⟩
    · refine tidy_append.mpr ⟨tidy_of_touches hbehind, htidy, fun a ha => ?_⟩
      rw [freed_of_touches hbehind] at ha
      cases ha
    · rw [freed_map_free]
      exact hlater
    · intro a ha
      rw [freed_of_touches hbefore] at ha
      cases ha

end Drains

end Logs

/-! ## What they do

To the links, as the operations without a log do it; and to the blocks, what their log says. -/

section Runs

theorem touch_run {owner : α → Option β} {fault : η} {a : α} {b : β} (h : owner a = some b)
    (l : Links α) : touch owner fault a l = ⟨[.touch b 0], .ok (⟨⟩, l)⟩ := by
  rw [touch, h]
  rfl

/-- The first element, and what is behind it in the ring. -/
theorem Ring.first {l : Links α} {head x : α} {xs : List α} (h : l.Ring head (x :: xs)) :
    l.next head = x ∧ l.prev x = head ∧ l.next x = xs.headD head :=
  ⟨h.linked.1.1, h.linked.1.2, h.linked.2.next_eq⟩

theorem headD_mem (head : α) (xs : List α) : xs.headD head ∈ head :: xs := by
  cases xs with
  | nil => exact List.mem_cons_self
  | cons y ys => exact List.mem_cons_of_mem _ List.mem_cons_self

variable [DecidableEq α] {owner : α → Option β} {o : α → β} (blocks : α → List β) (p q : α)
  (fault fuel : η) {head x : α} {xs : List α} {l : Links α} {rounds : ℕ}

/-- A new element comes first, and three list heads are written to: its own, that of the list, and
that of the element that came first until now, which may be the head itself. -/
theorem add_run {new : α} (h : l.Ring head xs) (hnew : new ∉ head :: xs)
    (howner : ∀ a ∈ new :: head :: xs, owner a = some (o a)) :
    ∃ log, add owner fault new head l =
        ⟨log, .ok (⟨⟩, (l.initListHead new).listAdd new head)⟩ ∧
      ∀ e ∈ log, ∃ a ∈ new :: head :: xs, e = .touch (o a) 0 := by
  obtain ⟨hne, -⟩ := not_or.mp (mt List.mem_cons.mpr hnew)
  have htouch (a : α) (ha : a ∈ new :: head :: xs) (l' : Links α) :
      touch owner fault a l' = ⟨[.touch (o a) 0], .ok (⟨⟩, l')⟩ := touch_run (howner a ha) l'
  have hhead := List.mem_cons_of_mem new (List.mem_cons_self (a := head) (l := xs))
  have hnext : l.next head ∈ new :: head :: xs := List.mem_cons_of_mem _ h.next_mem
  have hinit : (l.initListHead new).next head = l.next head := (initListHead_of_ne (Ne.symm hne)).1
  refine ⟨[new, head, l.next head, new].map fun a => .touch (o a) 0, ?_, ?_⟩
  · rw [add, bind_eq (htouch new List.mem_cons_self l), get_bind_apply, set_bind_apply,
      bind_eq (htouch head hhead _), get_bind_apply, hinit, bind_eq (htouch _ hnext _),
      bind_eq (htouch new List.mem_cons_self _)]
    rfl
  · rw [List.forall_mem_map]
    intro a ha
    refine ⟨a, ?_, rfl⟩
    simp only [List.mem_cons, List.not_mem_nil, or_false] at ha
    rcases ha with rfl | rfl | rfl | rfl
    · exact List.mem_cons_self
    · exact hhead
    · exact hnext
    · exact List.mem_cons_self

/-- The first element is taken out; other list heads stay. -/
theorem Ring.drop (h : l.Ring head (x :: xs)) : (l.listDel p q x).Ring head xs ∧
    ∀ y, y ∉ head :: x :: xs →
      (l.listDel p q x).next y = l.next y ∧ (l.listDel p q x).prev y = l.prev y := by
  obtain ⟨-, hprev, hnext⟩ := h.first
  refine ⟨(show l.Ring head ([] ++ x :: xs) from h).listDel, fun y hy => listDel_of_ne ?_ ?_ ?_⟩
  · exact fun e => hy (e ▸ List.mem_cons_of_mem _ List.mem_cons_self)
  · exact fun e => hy (e ▸ hprev ▸ List.mem_cons_self)
  · rw [hnext]
    refine fun e => hy (e ▸ ?_)
    exact List.cons_subset_cons _ (List.subset_cons_self _ _) (headD_mem head xs)

/-- The first element, when the list is only read forwards. -/
theorem Ahead.first (h : l.Ahead head (x :: xs)) :
    l.next head = x ∧ l.prev x = head ∧ l.next x = xs.headD head := by
  obtain ⟨hfirst, hprev, hnext⟩ := Ring.first h
  have hne : x ≠ head := fun e => (List.nodup_cons.mp h.nodup).1 (e ▸ List.mem_cons_self)
  rw [setPrev_of_ne hne] at hprev
  exact ⟨hfirst, hprev, hnext⟩

/-- The first element is taken out of such a list, and what is behind it stays. -/
theorem Ahead.drop (h : l.Ahead head (x :: xs)) : (l.listDel p q x).Ahead head xs ∧
    ∀ y, y ∉ head :: x :: xs →
      (l.listDel p q x).next y = l.next y ∧ (l.listDel p q x).prev y = l.prev y := by
  obtain ⟨-, hprev, hnext⟩ := h.first
  obtain ⟨hring, -⟩ := Ring.drop p q h
  have hne : ∀ y ∈ x :: xs, y ≠ head := fun y hy e => (List.nodup_cons.mp h.nodup).1 (e ▸ hy)
  have hx : (l.setPrev head ((x :: xs).getLastD head)).prev x = l.prev x :=
    setPrev_of_ne (hne x List.mem_cons_self)
  refine ⟨hring.ahead.congr (fun y _ => ?_) fun y hy => ?_, fun y hy => listDel_of_ne ?_ ?_ ?_⟩
  · rw [listDel_next, listDel_next, hx]
    rfl
  · rw [listDel_prev, listDel_prev, hx, setPrev_of_ne (hne y (List.mem_cons_of_mem _ hy))]
    rfl
  · exact fun e => hy (e ▸ List.mem_cons_of_mem _ List.mem_cons_self)
  · exact fun e => hy (e ▸ hprev ▸ List.mem_cons_self)
  · rw [hnext]
    refine fun e => hy (e ▸ ?_)
    exact List.cons_subset_cons _ (List.subset_cons_self _ _) (headD_mem head xs)

theorem drop_run (h : l.Ahead head (x :: xs))
    (howner : ∀ a ∈ head :: x :: xs, owner a = some (o a)) :
    ∃ before, (∀ e ∈ before, ∃ a ∈ head :: x :: xs, e = .touch (o a) 0) ∧
      drop owner blocks p q fault x l =
        ⟨before ++ (blocks x).map .free, .ok (⟨⟩, l.listDel p q x)⟩ := by
  obtain ⟨-, hprev, hnext⟩ := h.first
  have hmem : ∀ a ∈ [x, xs.headD head, head], a ∈ head :: x :: xs := by
    intro a ha
    rcases List.mem_cons.mp ha with rfl | ha
    · exact List.mem_cons_of_mem _ List.mem_cons_self
    rcases List.mem_cons.mp ha with rfl | ha
    · exact List.cons_subset_cons _ (List.subset_cons_self _ _) (headD_mem head xs)
    · rw [List.mem_singleton.mp ha]
      exact List.mem_cons_self
  have htouch : ∀ a ∈ [x, xs.headD head, head],
      touch owner fault a l = ⟨[.touch (o a) 0], .ok (⟨⟩, l)⟩ := fun a ha =>
    touch_run (howner a (hmem a ha)) l
  simp only [List.forall_mem_cons] at htouch
  obtain ⟨hx, hn, hh, -⟩ := htouch
  refine ⟨[x, xs.headD head, head].map fun a => .touch (o a) 0, fun e he => ?_, ?_⟩
  · obtain ⟨a, ha, rfl⟩ := List.mem_map.mp he
    exact ⟨a, hmem a ha, rfl⟩
  · have hdel : del owner p q fault x l =
        ⟨[x, xs.headD head, head].map fun a => .touch (o a) 0, .ok (⟨⟩, l.listDel p q x)⟩ := by
      rw [del, bind_eq hx, get_bind_apply, hnext, hprev, bind_eq hn, bind_eq hh]
      rfl
    have hfrees : forEach (fun b => emit (.free b)) (blocks x) (l.listDel p q x) =
        (⟨(blocks x).flatMap fun b => [.free b], .ok (⟨⟩, l.listDel p q x)⟩ :
          Outcome (Use β) η (Links α) PUnit) := forEach_eq fun _ _ => rfl
    rw [Links.drop, bind_eq hdel, hfrees, List.map_eq_flatMap (f := Use.free)]

/-- The loop that remembers the next element, by induction on the list. The next element is read
before the current one is unlinked and freed, so no link of a freed element is used. -/
theorem dropFrom_run (h : l.Ring head xs) (hrounds : xs.length < rounds)
    (howner : ∀ a ∈ head :: xs, owner a = some (o a)) :
    ∃ log l', dropFrom owner blocks p q fault fuel head rounds (l.next head)
        (l.next (l.next head)) l = ⟨log, .ok (⟨⟩, l')⟩ ∧
      Drains o blocks head xs log ∧ l'.Ring head [] ∧
      ∀ y, y ∉ head :: xs → l'.next y = l.next y ∧ l'.prev y = l.prev y := by
  induction xs generalizing l rounds with
  | nil =>
    obtain ⟨rounds, rfl⟩ := Nat.exists_eq_succ_of_ne_zero (Nat.ne_of_gt hrounds)
    refine ⟨[], l, ?_, .nil (by simp), h, fun _ _ => ⟨rfl, rfl⟩⟩
    rw [dropFrom, if_pos h.linked.1]
    rfl
  | cons x xs ih =>
    obtain ⟨rounds, rfl⟩ := Nat.exists_eq_succ_of_ne_zero (Nat.ne_of_gt (Nat.zero_lt_of_lt hrounds))
    obtain ⟨hfirst, -, hnext⟩ := h.first
    obtain ⟨hring, hframe⟩ := h.drop p q
    have hsub : head :: xs ⊆ head :: x :: xs :=
      List.cons_subset_cons _ (List.subset_cons_self _ _)
    obtain ⟨before, hbefore, hdrop⟩ := drop_run blocks p q fault h.ahead howner
    obtain ⟨log, l', hrun, hdrains, hring', hframe'⟩ := ih hring
      (Nat.lt_of_succ_lt_succ hrounds) fun a ha => howner a (hsub ha)
    have hhead : (l.listDel p q x).next head = xs.headD head := hring.linked.next_eq
    have htouch : touch owner fault (xs.headD head) (l.listDel p q x) = ⟨[.touch _ 0], _⟩ :=
      touch_run (howner _ (hsub (headD_mem head xs))) _
    refine ⟨before ++ (blocks x).map .free ++ [.touch (o (xs.headD head)) 0] ++ log, l', ?_,
      .cons hbefore ?_ hdrains, hring', fun y hy => ?_⟩
    · have hne : x ≠ head := fun e => (List.nodup_cons.mp h.nodup).1 (e ▸ List.mem_cons_self)
      rw [dropFrom, hfirst, if_neg hne, bind_eq hdrop, hnext, bind_eq htouch, get_bind_apply,
        ← hhead, hrun]
      simp
    · intro e he
      rw [List.mem_singleton.mp he]
      exact ⟨_, headD_mem head xs, rfl⟩
    · obtain ⟨hn, hp⟩ := hframe y hy
      obtain ⟨hn', hp'⟩ := hframe' y fun hmem => hy (hsub hmem)
      exact ⟨hn'.trans hn, hp'.trans hp⟩

/-- `list_for_each_entry_safe` takes the whole list apart, when it has more rounds than elements and
every list head lies in a block. -/
theorem dropEach_run (h : l.Ring head xs) (hrounds : xs.length < rounds)
    (howner : ∀ a ∈ head :: xs, owner a = some (o a)) :
    ∃ log l', dropEach owner blocks p q fault fuel rounds head l =
        ⟨.touch (o head) 0 :: .touch (o (xs.headD head)) 0 :: log, .ok (⟨⟩, l')⟩ ∧
      Drains o blocks head xs log ∧ l'.Ring head [] ∧
      ∀ y, y ∉ head :: xs → l'.next y = l.next y ∧ l'.prev y = l.prev y := by
  obtain ⟨log, l', hrun, hdrains, hring, hframe⟩ := dropFrom_run blocks p q fault fuel
    h hrounds howner
  refine ⟨log, l', ?_, hdrains, hring, hframe⟩
  have hhead : touch owner fault head l = ⟨[.touch (o head) 0], .ok (⟨⟩, l)⟩ :=
    touch_run (howner _ List.mem_cons_self) l
  have hnext : touch owner fault (l.next head) l =
      ⟨[.touch (o (xs.headD head)) 0], .ok (⟨⟩, l)⟩ := by
    rw [h.linked.next_eq]
    exact touch_run (howner _ (headD_mem head xs)) l
  rw [dropEach, bind_eq hhead, get_bind_apply, bind_eq hnext, hrun]
  rfl

/-- Loops inside a loop are one loop over all of it. -/
theorem forEach_nested {γ δ σ : Type} (f : γ → Logged (Use β) η σ PUnit) (g : δ → List γ)
    (ds : List δ) : forEach (fun d => forEach f (g d)) ds = forEach f (ds.flatMap g) := by
  have happend (xs ys : List γ) : forEach f (xs ++ ys) = (do forEach f xs; forEach f ys) := by
    induction xs with
    | nil => exact (pure_bind ..).symm
    | cons x xs ih => rw [List.cons_append, forEach, forEach, ih, bind_assoc]
  induction ds with
  | nil => rfl
  | cons d ds ih => rw [forEach, ih, List.flatMap_cons, happend]

theorem forEach_map {γ δ σ : Type} (f : γ → Logged (Use β) η σ PUnit) (g : δ → γ) (ds : List δ) :
    forEach (fun d => f (g d)) ds = forEach f (ds.map g) := by
  induction ds with
  | nil => rfl
  | cons d ds ih => rw [forEach, ih, List.map_cons, forEach]

/-- Lists that have nothing in common are taken apart one after the other, and the blocks of all
elements are freed in the order of the lists. -/
theorem dropLists_run {heads : List α} {xs : α → List α} (h : ∀ a ∈ heads, l.Ring a (xs a))
    (hapart : heads.Pairwise fun a b => List.Disjoint (a :: xs a) (b :: xs b))
    (hrounds : ∀ a ∈ heads, (xs a).length < rounds)
    (howner : ∀ a ∈ heads, ∀ y ∈ a :: xs a, owner y = some (o y))
    (hblocks : ((heads.flatMap xs).flatMap blocks).Nodup)
    (hhead : ∀ a ∈ heads, ∀ x ∈ heads.flatMap xs, o a ∉ blocks x)
    (hown : ∀ x ∈ heads.flatMap xs, ∀ y ∈ heads.flatMap xs, o y ∈ blocks x → x = y) :
    ∃ log l', forEach (dropEach owner blocks p q fault fuel rounds) heads l =
        ⟨log, .ok (⟨⟩, l')⟩ ∧
      freed log = (heads.flatMap xs).flatMap blocks ∧ Tidy log ∧
      (∀ e ∈ log, (∃ a ∈ heads, e.addr = o a) ∨
        ∃ x ∈ heads.flatMap xs, e.addr = o x ∨ e.addr ∈ blocks x) ∧
      (∀ a ∈ heads, l'.Ring a []) ∧
      ∀ y, (∀ a ∈ heads, y ∉ a :: xs a) → l'.next y = l.next y ∧ l'.prev y = l.prev y := by
  induction heads generalizing l with
  | nil => exact ⟨[], l, rfl, rfl, List.Pairwise.nil, by simp, by simp, fun _ _ => ⟨rfl, rfl⟩⟩
  | cons a heads ih =>
    obtain ⟨hring, h⟩ := List.forall_mem_cons.mp h
    obtain ⟨ha, hapart⟩ := List.pairwise_cons.mp hapart
    obtain ⟨hround, hrounds⟩ := List.forall_mem_cons.mp hrounds
    obtain ⟨howner₁, howner⟩ := List.forall_mem_cons.mp howner
    obtain ⟨hhead₁, hhead⟩ := List.forall_mem_cons.mp hhead
    rw [List.flatMap_cons] at hblocks hhead₁ hhead hown
    obtain ⟨log₁, l₁, hrun₁, hdrains, hring₁, hframe₁⟩ := dropEach_run blocks p q fault
      fuel hring hround howner₁
    have hleft : ∀ x ∈ xs a, x ∈ xs a ++ heads.flatMap xs := fun _ => List.mem_append_left _
    have hright : ∀ x ∈ heads.flatMap xs, x ∈ xs a ++ heads.flatMap xs :=
      fun _ => List.mem_append_right _
    rw [List.flatMap_append, List.nodup_append] at hblocks
    -- the other lists are as before
    have hrest : ∀ b ∈ heads, l₁.Ring b (xs b) := fun b hb => (h b hb).congr fun y hy =>
      hframe₁ y fun hy' => ha b hb hy' hy
    obtain ⟨log₂, l₂, hrun₂, hfreed₂, htidy₂, huses₂, hrings₂, hframe₂⟩ := ih hrest hapart hrounds
      howner hblocks.2.1 (fun b hb x hx => hhead b hb x (hright x hx))
      fun x hx y hy => hown x (hright x hx) y (hright y hy)
    have hfreed₁ : freed (Use.touch (o a) 0 :: .touch (o ((xs a).headD a)) 0 :: log₁) =
        (xs a).flatMap blocks := by
      rw [freed_touch, freed_touch, hdrains.freed_eq]
    refine ⟨_, l₂, by rw [forEach, bind_eq hrun₁, hrun₂], ?_, tidy_append.mpr ⟨?_, htidy₂, ?_⟩,
      List.forall_mem_append.mpr ⟨?_, ?_⟩, List.forall_mem_cons.mpr ⟨?_, hrings₂⟩, ?_⟩
    · rw [freed_append, hfreed₁, hfreed₂, List.flatMap_cons, List.flatMap_append]
    · have htidy₁ := hdrains.tidy (List.nodup_cons.mp hring.nodup).2 hblocks.1
        (fun x hx => hhead₁ x (hleft x hx)) fun x hx y hy => hown x (hleft x hx) y (hleft y hy)
      exact List.Pairwise.cons (fun _ _ h => by cases h)
        (List.Pairwise.cons (fun _ _ h => by cases h) htidy₁)
    · -- what the first list frees is not used any more
      rw [hfreed₁]
      rintro b hb e he rfl
      obtain ⟨x, hx, hbx⟩ := List.mem_flatMap.mp hb
      rcases huses₂ e he with ⟨a', ha', hea⟩ | ⟨y, hy, hea | hey⟩
      · exact hhead a' ha' x (hleft x hx) (hea ▸ hbx)
      · obtain rfl := hown x (hleft x hx) y (hright y hy) (hea ▸ hbx)
        obtain ⟨a', ha', hx'⟩ := List.mem_flatMap.mp hy
        exact ha a' ha' (List.mem_cons_of_mem _ hx) (List.mem_cons_of_mem _ hx')
      · exact hblocks.2.2 _ hb _ (List.mem_flatMap.mpr ⟨y, hy, hey⟩) rfl
    · have htouch : ∀ b ∈ a :: xs a, (∃ a' ∈ a :: heads, o b = o a') ∨
          ∃ x ∈ (a :: heads).flatMap xs, o b = o x ∨ o b ∈ blocks x := by
        intro b hb
        rcases List.mem_cons.mp hb with rfl | hb
        · exact .inl ⟨b, List.mem_cons_self, rfl⟩
        · exact .inr ⟨b, by rw [List.flatMap_cons]; exact hleft b hb, .inl rfl⟩
      refine List.forall_mem_cons.mpr ⟨htouch a List.mem_cons_self, List.forall_mem_cons.mpr
        ⟨htouch _ (headD_mem a (xs a)), fun e he => ?_⟩⟩
      rcases hdrains.addr he with hea | ⟨x, hx, hex⟩
      · exact .inl ⟨a, List.mem_cons_self, hea⟩
      · exact .inr ⟨x, by rw [List.flatMap_cons]; exact hleft x hx, hex⟩
    · intro e he
      rcases huses₂ e he with ⟨a', ha', hea⟩ | ⟨x, hx, hex⟩
      · exact .inl ⟨a', List.mem_cons_of_mem _ ha', hea⟩
      · exact .inr ⟨x, by rw [List.flatMap_cons]; exact hright x hx, hex⟩
    · refine hring₁.congr fun y hy => hframe₂ y fun b hb hy' => ?_
      rw [List.mem_singleton.mp hy] at hy'
      exact ha b hb List.mem_cons_self hy'
    · intro y hy
      obtain ⟨hy₁, hy⟩ := List.forall_mem_cons.mp hy
      obtain ⟨hn₁, hp₁⟩ := hframe₁ y hy₁
      obtain ⟨hn₂, hp₂⟩ := hframe₂ y hy
      exact ⟨hn₂.trans hn₁, hp₂.trans hp₁⟩

end Runs

end Links
