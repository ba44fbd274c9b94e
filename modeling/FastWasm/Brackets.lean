import Mathlib.Data.List.Induction

/-!
# Brackets

A word over any alphabet whose letters open a bracket, close one, or do neither; its brackets need
not be balanced. A letter that closes matches a letter that opens when what stands between them is
balanced. This is a statement about the word alone, without a stack (`Balanced`, `Matched`).

Reading the word once with a stack of what is open (`read`) finds exactly these pairs
(`mem_closed_iff`). One half of this goes by induction on a balanced word, which leaves the stack as
it is; the other half needs to know of every letter on the stack that the word behind it is balanced
(`Pending`). Over an ordered alphabet, the letters of the word in increasing order, two pairs have
no letter in common and are nested or disjoint (`closed_pairwise`).

The letters are whatever the user of the module takes them for. A validator that walks over a
function body has the positions of the opcodes for letters.
-/

namespace FastWasm

/-- What a letter does: it opens a bracket, closes one, or does neither. There is one kind of
bracket only. -/
inductive Bracket where
  | opens
  | closes
  | other
  deriving DecidableEq, Repr

namespace Bracket

section

variable {α : Type} {kind : α → Bracket} {l l' : List α} {o c : α}

/-- Words in which every bracket is matched: letters that do neither, and balanced words between an
opening letter and a closing one, put together in any way. -/
inductive Balanced (kind : α → Bracket) : List α → Prop
  | nil : Balanced kind []
  | other {a : α} {l : List α} (ha : kind a = .other) (h : Balanced kind l) : Balanced kind (a :: l)
  | pair {o c : α} {l l' : List α} (ho : kind o = .opens) (hc : kind c = .closes)
      (h : Balanced kind l) (h' : Balanced kind l') : Balanced kind (o :: (l ++ c :: l'))

theorem Balanced.append (h : Balanced kind l) (h' : Balanced kind l') :
    Balanced kind (l ++ l') := by
  induction h with
  | nil => exact h'
  | other ha _ ih => exact .other ha ih
  | @pair o c l₁ l₂ ho hc h₁ _ _ ih =>
    rw [List.cons_append, List.append_assoc, List.cons_append]
    exact .pair ho hc h₁ ih

/-- In the word `l`, `c` closes what `o` opens: the word reads `o`, then something balanced, then
`c`, with anything before and behind. No stack is mentioned, so this is what a matching is to be
measured by. -/
def Matched (kind : α → Bracket) (l : List α) (o c : α) : Prop :=
  kind o = .opens ∧ kind c = .closes ∧
    ∃ before between after, l = before ++ o :: (between ++ c :: after) ∧ Balanced kind between

theorem Matched.append (h : Matched kind l o c) (l' : List α) : Matched kind (l ++ l') o c := by
  obtain ⟨ho, hc, before, between, after, rfl, hb⟩ := h
  refine ⟨ho, hc, before, between, after ++ l', ?_, hb⟩
  rw [List.append_assoc, List.cons_append, List.append_assoc, List.cons_append]

/-! ## One reading -/

/-- What a reader knows after some letters: those that are still open, the innermost first, and the
pairs it has found. -/
structure Reading (α : Type) where
  /-- what is open, the last letter first -/
  pending : List α
  /-- the pairs found -/
  closed : List (α × α)

/-- The next letter. An opening letter is put on the stack, and a closing one takes the
innermost open letter for its partner. A letter that closes while nothing is open is passed over. -/
def Reading.next (kind : α → Bracket) (s : Reading α) (a : α) : Reading α :=
  match kind a with
  | .opens => { s with pending := a :: s.pending }
  | .closes =>
    match s.pending with
    | [] => s
    | o :: pending => ⟨pending, s.closed ++ [(o, a)]⟩
  | .other => s

namespace Reading

variable {s : Reading α} {a : α}

theorem next_opens (h : kind a = .opens) : s.next kind a = ⟨a :: s.pending, s.closed⟩ := by
  rw [next, h]

theorem next_other (h : kind a = .other) : s.next kind a = s := by rw [next, h]

theorem next_closes_nil (h : kind a = .closes) (hs : s.pending = []) : s.next kind a = s := by
  rw [next, h, hs]

theorem next_closes_cons {pending : List α} (h : kind a = .closes)
    (hs : s.pending = o :: pending) :
    s.next kind a = ⟨pending, s.closed ++ [(o, a)]⟩ := by
  rw [next, h, hs]

/-- The pairs found stay. -/
theorem closed_subset_next (s : Reading α) (a : α) : s.closed ⊆ (s.next kind a).closed := by
  cases h : kind a with
  | opens => rw [next_opens h]; exact List.Subset.refl _
  | other => rw [next_other h]; exact List.Subset.refl _
  | closes =>
    cases hs : s.pending with
    | nil => rw [next_closes_nil h hs]; exact List.Subset.refl _
    | cons o pending => rw [next_closes_cons h hs]; exact List.subset_append_left ..

theorem closed_subset_foldl (l : List α) (s : Reading α) :
    s.closed ⊆ (l.foldl (next kind) s).closed := by
  induction l generalizing s with
  | nil => exact List.Subset.refl _
  | cons a l ih => exact fun p hp => ih _ (closed_subset_next s a hp)

/-- A balanced word leaves open what was open, in the same order: whatever it puts on the stack it
takes away again. -/
theorem pending_of_balanced (h : Balanced kind l) (s : Reading α) :
    (l.foldl (next kind) s).pending = s.pending := by
  induction h generalizing s with
  | nil => rfl
  | other ha _ ih => rw [List.foldl_cons, next_other ha, ih]
  | @pair o c l₁ l₂ ho hc _ _ ih₁ ih₂ =>
    have hopen := ih₁ (s.next kind o)
    rw [next_opens ho] at hopen
    rw [List.foldl_cons, List.foldl_append, List.foldl_cons, ih₂, next_opens ho,
      next_closes_cons hc hopen]

end Reading

/-- The whole word read. -/
def read (kind : α → Bracket) (l : List α) : Reading α := l.foldl (.next kind) ⟨[], []⟩

theorem read_concat (l : List α) (a : α) : read kind (l ++ [a]) = (read kind l).next kind a := by
  rw [read, List.foldl_append]
  rfl

/-- Behind each open letter, up to the next one, the word is balanced. The stack of a reader has
this of the word that was read, and it is what makes the pair of a closing letter a matching one. -/
def Pending (kind : α → Bracket) : List α → List α → Prop
  | _, [] => True
  | l, o :: pending => kind o = .opens ∧
      ∃ before between, l = before ++ o :: between ∧ Balanced kind between ∧
        Pending kind before pending

/-- Only matching letters are paired, by induction on the word from its end: a closing letter takes
the innermost open one, and behind that the word is balanced. -/
theorem read_sound (l : List α) : Pending kind l (read kind l).pending ∧
    ∀ o c, (o, c) ∈ (read kind l).closed → Matched kind l o c := by
  induction l using List.reverseRecOn with
  | nil => exact ⟨trivial, fun _ _ h => by cases h⟩
  | append_singleton l a ih =>
    obtain ⟨hpending, hclosed⟩ := ih
    have hold := fun o c h => (hclosed o c h).append [a]
    rw [read_concat]
    cases ha : kind a with
    | opens =>
      rw [Reading.next_opens ha]
      exact ⟨⟨ha, l, [], rfl, .nil, hpending⟩, hold⟩
    | other =>
      rw [Reading.next_other ha]
      refine ⟨?_, hold⟩
      cases hs : (read kind l).pending with
      | nil => trivial
      | cons o pending =>
        rw [hs] at hpending
        obtain ⟨ho, before, between, rfl, hb, hrest⟩ := hpending
        refine ⟨ho, before, between ++ [a], ?_, hb.append (.other ha .nil), hrest⟩
        rw [List.append_assoc, List.cons_append]
    | closes =>
      cases hs : (read kind l).pending with
      | nil =>
        rw [Reading.next_closes_nil ha hs, hs]
        exact ⟨trivial, hold⟩
      | cons o pending =>
        rw [hs] at hpending
        obtain ⟨ho, before, between, rfl, hb, hrest⟩ := hpending
        rw [Reading.next_closes_cons ha hs]
        refine ⟨?_, fun o' c' h => ?_⟩
        · cases pending with
          | nil => trivial
          | cons o₁ pending =>
            -- the closed pair joins what stands behind the letter below it
            obtain ⟨ho₁, before₁, between₁, rfl, hb₁, hrest₁⟩ := hrest
            refine ⟨ho₁, before₁, between₁ ++ o :: (between ++ [a]), ?_,
              hb₁.append (.pair ho ha hb .nil), hrest₁⟩
            simp only [List.append_assoc, List.cons_append]
        · rcases List.mem_append.mp h with h | h
          · exact hold o' c' h
          · obtain ⟨rfl, rfl⟩ := Prod.mk.inj (List.mem_singleton.mp h)
            refine ⟨ho, ha, before, between, [], ?_, hb⟩
            rw [List.append_assoc, List.cons_append]

/-- The pairs found are the pairs that match. The reader misses none, since a balanced word between
the two letters leaves the opening one on top of its stack. -/
theorem mem_closed_iff : (o, c) ∈ (read kind l).closed ↔ Matched kind l o c := by
  refine ⟨(read_sound l).2 o c, ?_⟩
  rintro ⟨ho, hc, before, between, after, rfl, hb⟩
  have hopen : (between.foldl (.next kind) ((read kind before).next kind o)).pending =
      o :: (read kind before).pending := by
    rw [Reading.pending_of_balanced hb, Reading.next_opens ho]
  rw [read, List.foldl_append, List.foldl_cons, List.foldl_append, List.foldl_cons, ← read,
    Reading.next_closes_cons hc hopen]
  apply Reading.closed_subset_foldl
  exact List.mem_append_right _ (List.mem_singleton_self _)

end

/-! ## Ordered letters -/

section

variable {α : Type} [LT α] {kind : α → Bracket} {l : List α}

/-- The pair `p` ends before `q` begins, or lies inside `q`. -/
def Before (p q : α × α) : Prop := p.2 < q.1 ∨ q.1 < p.1 ∧ p.2 < q.2

/-- What a reader of increasing letters knows: its letters come from the word, and the pairs it has
found lie apart from each other and behind what is open, or inside. -/
structure Ordered (l : List α) (s : Reading α) : Prop where
  pending_mem : ∀ o ∈ s.pending, o ∈ l
  closed_mem : ∀ p ∈ s.closed, p.1 ∈ l ∧ p.2 ∈ l ∧ p.1 < p.2
  pending : s.pending.Pairwise (· > ·)
  outside : ∀ p ∈ s.closed, ∀ o ∈ s.pending, o < p.1 ∨ p.2 < o
  closed : s.closed.Pairwise Before

theorem Ordered.next {s : Reading α} {a : α} (h : Ordered l s) (ha : ∀ x ∈ l, x < a) :
    Ordered (l ++ [a]) (s.next kind a) := by
  have hmem : ∀ o ∈ s.pending, o ∈ l ++ [a] := fun o ho =>
    List.mem_append_left _ (h.pending_mem o ho)
  have hcmem : ∀ p ∈ s.closed, p.1 ∈ l ++ [a] ∧ p.2 ∈ l ++ [a] ∧ p.1 < p.2 := fun p hp =>
    ⟨List.mem_append_left _ (h.closed_mem p hp).1, List.mem_append_left _ (h.closed_mem p hp).2.1,
      (h.closed_mem p hp).2.2⟩
  have hsame : Ordered (l ++ [a]) s := ⟨hmem, hcmem, h.pending, h.outside, h.closed⟩
  have hlast : a ∈ l ++ [a] := List.mem_append_right _ (List.mem_singleton_self a)
  cases hk : kind a with
  | other =>
    rw [Reading.next_other hk]
    exact hsame
  | opens =>
    rw [Reading.next_opens hk]
    refine ⟨List.forall_mem_cons.mpr ⟨hlast, hmem⟩, hcmem,
      .cons (fun o ho => ha o (h.pending_mem o ho)) h.pending,
      fun p hp => List.forall_mem_cons.mpr ⟨.inr (ha _ (h.closed_mem p hp).2.1), h.outside p hp⟩,
      h.closed⟩
  | closes =>
    cases hs : s.pending with
    | nil =>
      rw [Reading.next_closes_nil hk hs]
      exact hsame
    | cons o pending =>
      rw [Reading.next_closes_cons hk hs]
      have ho : o ∈ s.pending := hs ▸ List.mem_cons_self ..
      have hsub : ∀ x ∈ pending, x ∈ s.pending := fun x hx => hs ▸ List.mem_cons_of_mem _ hx
      obtain ⟨hgt, hrest⟩ := List.pairwise_cons.mp (hs ▸ h.pending)
      refine ⟨fun x hx => hmem x (hsub x hx), ?_, hrest, ?_, ?_⟩
      · refine List.forall_mem_append.mpr ⟨hcmem, List.forall_mem_singleton.mpr ?_⟩
        exact ⟨hmem o ho, hlast, ha o (h.pending_mem o ho)⟩
      · refine List.forall_mem_append.mpr ⟨fun p hp x hx => h.outside p hp x (hsub x hx),
          List.forall_mem_singleton.mpr fun x hx => .inl (hgt x hx)⟩
      · refine List.pairwise_append.mpr ⟨h.closed, List.pairwise_singleton .., fun p hp q hq => ?_⟩
        obtain rfl := List.mem_singleton.mp hq
        exact (h.outside p hp o ho).symm.imp_right fun hlt => ⟨hlt, ha _ (h.closed_mem p hp).2.1⟩

theorem ordered_read (h : l.Pairwise (· < ·)) : Ordered l (read kind l) := by
  induction l using List.reverseRecOn with
  | nil => exact ⟨fun _ h => absurd h List.not_mem_nil, fun _ h => absurd h List.not_mem_nil, .nil,
      fun _ h => absurd h List.not_mem_nil, .nil⟩
  | append_singleton l a ih =>
    obtain ⟨hl, -, hlt⟩ := List.pairwise_append.mp h
    rw [read_concat]
    exact (ih hl).next fun x hx => hlt x hx a (List.mem_singleton_self a)

end

end Bracket

end FastWasm
