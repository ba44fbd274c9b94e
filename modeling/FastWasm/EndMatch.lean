import FastWasm.Brackets
import FastWasm.Walk
import Mathlib.Data.List.Forall2
import Mathlib.Data.List.Nodup
import Mathlib.Data.List.Pairwise

/-!
# Matching `end`

The walk uses `blktmp` as the stack of a reader of brackets: `block`, `loop` and `if` open, `end`
closes. So the block table holds the matching pairs, whatever else the body is.

The reader of brackets is given on its own, over positions and a function that says what each of
them does, together with what a matching pair is in terms of the balance between two positions. Here
the positions are those that the walk has fetched, in their order, and the lists of the validator
are kept in step with the reader's stack and with the pairs it has found (`Tracks`). That the pairs
are disjoint or nested is a fact about brackets and not about the walk; that the starts are distinct
needs that no opcode lies inside the immediates of another (`walk_pairwise`).
-/

namespace FastWasm

open Logged

/-! ## Opcodes as brackets

An `else` is no bracket. It takes an entry of `iftmp` and records a position in it, and leaves
`blktmp` alone. -/

/-- What an opcode does to the blocks: open one, close one, or nothing. -/
def bracketOf (opcode : UInt8) : Bracket :=
  if opcode = fwInstrBlock ∨ opcode = fwInstrLoop ∨ opcode = fwInstrIf then .opens
  else if opcode = fwInstrEnd then .closes
  else .other

/-- What a handler of the validator does to the blocks. -/
def ConsumeFn.bracket : ConsumeFn → Bracket
  | .block | .if_ => .opens
  | .end_ => .closes
  | .none_ | .c32 | .c64 | .brtbl | .else_ => .other

/-- The rows have the handlers of their opcodes, so the handler does to the blocks what the opcode
says. -/
theorem bracketOf_row {op : UInt8} {instr : FwInstr} {fn : ConsumeFn}
    (hi : fwGetInstr op = some instr) (hc : instr.consume = some fn) :
    bracketOf op = fn.bracket ∧ instr.code = op := by
  have hall : ∀ op : UInt8, (fwGetInstr op).all (fun instr => instr.consume.all fun fn =>
      bracketOf op = fn.bracket ∧ instr.code = op) = true := forall_byte (by decide +kernel)
  have hop := hall op
  rw [hi, Option.all_some, hc] at hop
  simpa using hop

theorem bracketOf_none {op : UInt8} (hi : fwGetInstr op = none) : bracketOf op = .other := by
  have hall : ∀ op : UInt8, fwGetInstr op = none → bracketOf op = .other :=
    forall_byte (by decide +kernel)
  exact hall op hi

theorem eq_end_of_closes {op : UInt8} (h : bracketOf op = .closes) : op = fwInstrEnd := by
  rw [bracketOf] at h
  split at h
  · cases h
  · split at h
    · assumption
    · cases h

/-- What the opcode at a position does. -/
def bracketAt (mem : Mem) (pos : ℕ) : Bracket := bracketOf (mem pos)

/-! ## The table of matching pairs

The entries of `blk` are in the order of the ends, which is the order in which a reader of brackets
finds its pairs. An entry that is open has a start; when it is closed it has an end as well, and
both stay. -/

/-- The entry of the opcode at `o`: its type, and its start behind the block type. -/
def FwModuleFuncBlock.OpenedAt (mem : Mem) (last : ℕ) (b : FwModuleFuncBlock) (o : ℕ) : Prop :=
  b.type = mem o ∧ ∃ v start,
    fwStrLebGetu mem ⟨o + 1, last⟩ 32 = .got v ⟨start, last⟩ ∧ b.start = some start

/-- The entry of the opcode at `p.1`, which the `end` at `p.2` closes. -/
def FwModuleFuncBlock.ClosedAt (mem : Mem) (last : ℕ) (b : FwModuleFuncBlock) (p : ℕ × ℕ) : Prop :=
  b.OpenedAt mem last p.1 ∧ b.fin = some (p.2 + 1)

/-- The block lists after the positions `l`: those of a reader of brackets, with the open ones on
its stack and the closed ones among its pairs. -/
structure Tracks (mem : Mem) (last : ℕ) (l : List ℕ) (s : FuncBlks) : Prop where
  /-- what is open -/
  pending : s.blktmp.reverse.Forall₂ (fun id o => (s.entry id).OpenedAt mem last o)
    (Bracket.read (bracketAt mem) l).pending
  /-- what is closed -/
  closed : s.blk.Forall₂ (fun id p => (s.entry id).ClosedAt mem last p)
    (Bracket.read (bracketAt mem) l).closed
  /-- an entry is in one list, once -/
  nodup : (s.blktmp ++ s.blk).Nodup
  /-- and allocated -/
  fresh : ∀ id ∈ s.blktmp ++ s.blk, id < s.fresh

section

variable {mem : Mem} {last p : ℕ} {l : List ℕ} {s s' : FuncBlks}

/-- Entries that are related stay so where they are not written. -/
theorem forall₂_entry {β : Type} {R : FwModuleFuncBlock → β → Prop} {ids : List ℕ} {bs : List β}
    {entry entry' : ℕ → FwModuleFuncBlock} (h : ids.Forall₂ (fun id b => R (entry id) b) bs)
    (hsame : ∀ id ∈ ids, ∀ b, R (entry id) b → R (entry' id) b) :
    ids.Forall₂ (fun id b => R (entry' id) b) bs :=
  ((List.forall₂_and_left _ _).mpr ⟨hsame, h⟩).imp fun _ b hR => hR.1 b hR.2

/-- What neither opens nor closes leaves the pairs alone. -/
theorem Tracks.other (h : Tracks mem last l s) (hp : bracketAt mem p = .other) :
    Tracks mem last (l ++ [p]) s := by
  obtain ⟨hpending, hclosed, hnodup, hfresh⟩ := h
  refine ⟨?_, ?_, hnodup, hfresh⟩ <;> rw [Bracket.read_concat, Bracket.Reading.next_other hp]
  · exact hpending
  · exact hclosed

/-- An `else` writes neither a start nor an end, whichever entry it goes to. -/
theorem Tracks.popIf (h : Tracks mem last l s) (id els : ℕ) :
    Tracks mem last l (s.popIf id els) := by
  have hsame : ∀ id', ∃ els', (s.popIf id els).entry id' = { s.entry id' with els := els' } := by
    intro id'
    by_cases hid : id' = id
    · exact ⟨some els, hid ▸ Function.update_self ..⟩
    · exact ⟨(s.entry id').els, Function.update_of_ne hid ..⟩
  refine ⟨forall₂_entry h.pending ?_, forall₂_entry h.closed ?_, h.nodup, h.fresh⟩
  · intro id' _ o ho
    obtain ⟨els', he⟩ := hsame id'
    rw [he]
    exact ho
  · intro id' _ o ho
    obtain ⟨els', he⟩ := hsame id'
    rw [he]
    exact ho

/-- A block type that decodes opens an entry, whose start is behind it. The entry comes last among
the open ones, as the opcode does among the pending openers, and the other entries are not written
to. -/
theorem Tracks.openBlk (h : Tracks mem last l s) (hp : bracketAt mem p = .opens) {v : UInt64}
    {start : ℕ} (hr : fwStrLebGetu mem ⟨p + 1, last⟩ 32 = .got v ⟨start, last⟩) :
    Tracks mem last (l ++ [p]) (s.openBlk.setStart s.fresh start (mem p)) := by
  have hnew : (s.openBlk.setStart s.fresh start (mem p)).entry s.fresh =
      { s.openBlk.entry s.fresh with start := some start, type := mem p } :=
    Function.update_self ..
  have hold : ∀ id ∈ s.blktmp ++ s.blk,
      (s.openBlk.setStart s.fresh start (mem p)).entry id = s.entry id := by
    intro id hid
    have hne : id ≠ s.fresh := (h.fresh id hid).ne
    exact (Function.update_of_ne hne ..).trans (Function.update_of_ne hne ..)
  have hblktmp : (s.openBlk.setStart s.fresh start (mem p)).blktmp.reverse =
      s.fresh :: s.blktmp.reverse := List.reverse_concat ..
  refine ⟨?_, ?_, ?_, ?_⟩
  · rw [hblktmp, Bracket.read_concat, Bracket.Reading.next_opens hp]
    refine .cons ?_ (forall₂_entry h.pending fun id hid o ho => ?_)
    · rw [hnew]
      exact ⟨rfl, v, start, hr, rfl⟩
    · rw [hold id (List.mem_append_left _ (List.mem_reverse.mp hid))]
      exact ho
  · rw [Bracket.read_concat, Bracket.Reading.next_opens hp]
    refine forall₂_entry h.closed fun id hid o ho => ?_
    rw [hold id (List.mem_append_right _ hid)]
    exact ho
  · change ((s.blktmp ++ [s.fresh]) ++ s.blk).Nodup
    rw [List.append_assoc, List.singleton_append, List.nodup_middle]
    exact List.nodup_cons.mpr ⟨fun hid => (h.fresh _ hid).ne rfl, h.nodup⟩
  · change ∀ id ∈ (s.blktmp ++ [s.fresh]) ++ s.blk, id < s.fresh + 1
    intro id hid
    rw [List.append_assoc, List.singleton_append, List.perm_middle.mem_iff] at hid
    rcases List.mem_cons.mp hid with rfl | hid
    · exact Nat.lt_succ_self _
    · exact (h.fresh id hid).trans (Nat.lt_succ_self _)

/-- An `end` closes the last open entry, and puts it behind those that are closed. The reader of
brackets takes its last opener in the same way, so the pairs stay the same on both sides. -/
theorem Tracks.closeBlk (h : Tracks mem last l s) (hp : bracketAt mem p = .closes) {id : ℕ}
    (hblk : s.blktmp.getLast? = some id) : Tracks mem last (l ++ [p]) (s.closeBlk id (p + 1)) := by
  obtain ⟨blktmp, hlast⟩ := List.getLast?_eq_some_iff.mp hblk
  have hpending := h.pending
  rw [hlast, List.reverse_concat] at hpending
  obtain ⟨o, pending, ho, hrest, hread⟩ := List.forall₂_cons_left_iff.mp hpending
  have hperm : (blktmp ++ (s.blk ++ [id])).Perm (s.blktmp ++ s.blk) := by
    rw [hlast, List.append_assoc, List.singleton_append, ← List.append_assoc]
    exact (List.perm_append_singleton ..).trans List.perm_middle.symm
  have hnodup : (blktmp ++ (s.blk ++ [id])).Nodup := hperm.nodup_iff.mpr h.nodup
  have hnew : (s.closeBlk id (p + 1)).entry id = { s.entry id with
      fin := some (p + 1)
      els := if (s.entry id).els = none then some (p + 1) else (s.entry id).els } :=
    Function.update_self ..
  have hold : ∀ id' ∈ blktmp ++ s.blk, (s.closeBlk id (p + 1)).entry id' = s.entry id' := by
    intro id' hid
    rw [← List.append_assoc] at hnodup
    have hne : id' ≠ id := fun he =>
      (List.nodup_append.mp hnodup).2.2 id' hid id (List.mem_singleton_self _) he
    exact Function.update_of_ne hne ..
  have hblktmp : (s.closeBlk id (p + 1)).blktmp = blktmp := by
    change s.blktmp.dropLast = blktmp
    rw [hlast, List.dropLast_concat]
  refine ⟨?_, ?_, ?_, ?_⟩
  · rw [hblktmp, Bracket.read_concat, Bracket.Reading.next_closes_cons hp hread]
    refine forall₂_entry hrest fun id' hid o' ho' => ?_
    rw [hold id' (List.mem_append_left _ (List.mem_reverse.mp hid))]
    exact ho'
  · rw [Bracket.read_concat, Bracket.Reading.next_closes_cons hp hread]
    refine List.rel_append (forall₂_entry h.closed fun id' hid q hq => ?_) (.cons ?_ .nil)
    · rw [hold id' (List.mem_append_right _ hid)]
      exact hq
    · rw [hnew]
      exact ⟨ho, rfl⟩
  · rw [hblktmp]
    exact hnodup
  · rw [hblktmp]
    exact fun id' hid => h.fresh id' (hperm.mem_iff.mp hid)

/-- An `end` with nothing open is passed over, by the reader of brackets as well. -/
theorem Tracks.endFunc (h : Tracks mem last l s) (hp : bracketAt mem p = .closes)
    (hblk : s.blktmp.getLast? = none) : Tracks mem last (l ++ [p]) s := by
  obtain ⟨hpending, hclosed, hnodup, hfresh⟩ := h
  have hnil : (Bracket.read (bracketAt mem) l).pending = [] := by
    rw [List.getLast?_eq_none_iff.mp hblk] at hpending
    exact List.forall₂_nil_left_iff.mp hpending
  refine ⟨?_, ?_, hnodup, hfresh⟩ <;>
    rw [Bracket.read_concat, Bracket.Reading.next_closes_nil hp hnil]
  · exact hpending
  · exact hclosed

/-- What a round does to the pairs is what a reader of brackets does. By cases on the outcome of the
handler: those that open and close an entry have lemmas of their own, and an opcode without a row in
the table does nothing to either. -/
theorem Tracks.step {body : FwStr} (h : Tracks mem last l s)
    (hdec : bracketAt mem p = .opens → ∃ v str, fwStrLebGetu mem ⟨p + 1, last⟩ 32 = .got v str)
    (hs : (walkStep mem ⟨p, last⟩ s).res = .ok (body, s')) : Tracks mem last (l ++ [p]) s' := by
  cases hi : fwGetInstr (mem p) with
  | none =>
    rw [walkStep] at hs
    simp only [hi, pure_apply, Except.ok.injEq, Prod.mk.injEq] at hs
    rw [← hs.2]
    exact h.other (bracketOf_none hi)
  | some instr =>
    obtain ⟨fn, status, hc, hm⟩ := walkStep_eq_ok hi hs
    obtain ⟨hp, hcode⟩ := bracketOf_row hi hc
    have hp : bracketAt mem p = fn.bracket := hp
    rw [hcode] at hm
    obtain ⟨hn, hcons⟩ := consume_cases hm
    obtain ⟨next, bound⟩ := body
    obtain rfl : bound = last := (next_le hn).2
    cases hcons with
    | plain hfn => rcases hfn with rfl | rfl | rfl | rfl <;> exact h.other hp
    | malformed hfn hr =>
      obtain ⟨v, str, hgot⟩ := hdec (by rcases hfn with rfl | rfl <;> exact hp)
      cases hr.symm.trans hgot
    | block hr => exact h.openBlk hp hr
    | if_ hr _ =>
      have hopen := h.openBlk hp hr
      exact ⟨hopen.pending, hopen.closed, hopen.nodup, hopen.fresh⟩
    | else_ => exact (h.other hp).popIf _ _
    | astray =>
      have hother := h.other hp
      exact ⟨hother.pending, hother.closed, hother.nodup, hother.fresh⟩
    | endBlk hblk _ => exact h.closeBlk hp hblk
    | endFunc hblk => exact h.endFunc hp hblk

end

/-- So the whole walk reads brackets, by induction on its rounds. -/
theorem walk_tracks {mem : Mem} {last p q : ℕ} {l₀ l : List ℕ} {s s' : FuncBlks}
    (h : WalksTo mem last p s l q s') (ht : Tracks mem last l₀ s)
    (hdec : ∀ p ∈ l, bracketAt mem p = .opens →
      ∃ v str, fwStrLebGetu mem ⟨p + 1, last⟩ 32 = .got v str) :
    Tracks mem last (l₀ ++ l) s' := by
  induction h generalizing l₀ with
  | refl =>
    rw [List.append_nil]
    exact ht
  | step _ hs _ ih =>
    obtain ⟨hfirst, hrest⟩ := List.forall_mem_cons.mp hdec
    have htracks := ih (ht.step hfirst hs) hrest
    rwa [List.append_assoc] at htracks

/-- The walk visits the positions in order, each behind the immediates of those before. -/
theorem walk_pairwise {mem : Mem} {last p q : ℕ} {l : List ℕ} {s s' : FuncBlks}
    (h : WalksTo mem last p s l q s') :
    (∀ p' ∈ l, p ≤ p') ∧ l.Pairwise fun p p' =>
      ∃ next, instrNext mem ⟨p, last⟩ = some next ∧ next.pos ≤ p' := by
  induction h with
  | refl => exact ⟨fun _ hp => absurd hp List.not_mem_nil, .nil⟩
  | step _ hs _ ih =>
    obtain ⟨hfrom, hpairs⟩ := ih
    have hn := walkStep_next hs
    have hpos := (instrNext_lt hn).1
    exact ⟨List.forall_mem_cons.mpr ⟨le_refl _, fun p' hp' => hpos.le.trans (hfrom p' hp')⟩,
      .cons (fun p' hp' => ⟨_, hn, hfrom p' hp'⟩) hpairs⟩

/-- The position `p'` is not inside the instruction at `p`: it is in front of it, or behind its
immediates. -/
def Behind (mem : Mem) (last p p' : ℕ) : Prop :=
  p < p' → ∀ next, instrNext mem ⟨p, last⟩ = some next → next.pos ≤ p'

theorem sorted_behind {mem : Mem} {last : ℕ} {l : List ℕ} (h : l.Pairwise fun p p' =>
      ∃ next, instrNext mem ⟨p, last⟩ = some next ∧ next.pos ≤ p') :
    l.Pairwise (· < ·) ∧ ∀ p ∈ l, ∀ p' ∈ l, Behind mem last p p' := by
  refine ⟨h.imp fun ⟨_, hn, hle⟩ => (instrNext_lt hn).1.trans_le hle, ?_⟩
  have hsymm : Std.Symm fun p p' => Behind mem last p p' ∧ Behind mem last p' p :=
    ⟨fun _ _ hpp => hpp.symm⟩
  have hboth : l.Pairwise fun p p' => Behind mem last p p' ∧ Behind mem last p' p := by
    refine h.imp ?_
    rintro p p' ⟨next, hn, hle⟩
    refine ⟨fun _ next' hn' => ?_, fun hlt => ?_⟩
    · obtain rfl := Option.some.inj (hn.symm.trans hn')
      exact hle
    · exact absurd hlt (Nat.not_lt_of_lt ((instrNext_lt hn).1.trans_le hle))
  intro p hp p' hp' hlt
  exact (hboth.forall hp hp' hlt.ne).1 hlt

/-! ## The table after validation

What a reader of brackets finds is matched, and matched pairs are disjoint or nested. To carry that
over to the entries, the starts have to be in the order of the opcodes, which is so because each
instruction lies behind the block type of the one before. -/

/-- A block type is followed by the next instruction, which begins at the start of the block. -/
theorem next_of_opens {mem : Mem} {last o start : ℕ} {v : UInt64} (ho : bracketAt mem o = .opens)
    (hr : fwStrLebGetu mem ⟨o + 1, last⟩ 32 = .got v ⟨start, last⟩) :
    instrNext mem ⟨o, last⟩ = some ⟨start, last⟩ := by
  have hrow : ∀ op : UInt8, bracketOf op = .opens → ∃ instr fn, fwGetInstr op = some instr ∧
      instr.consume = some fn ∧ (fn = .block ∨ fn = .if_) := by
    intro op hop
    rw [bracketOf] at hop
    split at hop
    · next h =>
      rcases h with rfl | rfl | rfl
      · exact ⟨_, _, rfl, rfl, .inl rfl⟩
      · exact ⟨_, _, rfl, rfl, .inl rfl⟩
      · exact ⟨_, _, rfl, rfl, .inr rfl⟩
    · split at hop <;> cases hop
  obtain ⟨instr, fn, hi, hc, rfl | rfl⟩ := hrow _ ho
  · rw [instrNext_of_row hi hc, ConsumeFn.next, hr]
    rfl
  · rw [instrNext_of_row hi hc, ConsumeFn.next, hr]
    rfl

/-- The first block ends before the second one starts, or lies inside it. -/
def FwModuleFuncBlock.Before (b b' : FwModuleFuncBlock) : Prop :=
  ∀ start fin start' fin', b.start = some start → b.fin = some fin → b'.start = some start' →
    b'.fin = some fin' → fin < start' ∨ start' < start ∧ fin < fin'

/-- The block table `blks` of a body whose walk fetches at the positions `l`. -/
structure EndsMatched (mem : Mem) (last : ℕ) (l : List ℕ) (blks : FuncBlks) : Prop where
  /-- the entries are those of the opcodes that a later `end` matches -/
  entries : ∃ pairs : List (ℕ × ℕ),
    (∀ o c, (o, c) ∈ pairs ↔ Bracket.Matched (bracketAt mem) l o c) ∧
      blks.blk.Forall₂ (fun id p => (blks.entry id).ClosedAt mem last p) pairs
  /-- a block starts before its end, inside the body -/
  bounds : ∀ id ∈ blks.blk, ∃ start fin, (blks.entry id).start = some start ∧
    (blks.entry id).fin = some fin ∧ start < fin ∧ fin ≤ last
  /-- no two start at one position -/
  distinct : (blks.blk.map fun id => (blks.entry id).start).Nodup
  /-- two of them are disjoint or nested -/
  nested : ∀ id ∈ blks.blk, ∀ id' ∈ blks.blk, id ≠ id' →
    (blks.entry id).Before (blks.entry id') ∨ (blks.entry id').Before (blks.entry id)
  /-- each is found by its start -/
  found : ∀ id ∈ blks.blk, ∀ start, (blks.entry id).start = some start →
    fwInstrFindBlk blks start = some (blks.entry id)

theorem exists_of_forall₂ {α β : Type} {R : α → β → Prop} {l : List α} {l' : List β}
    (h : l.Forall₂ R l') : ∀ a ∈ l, ∃ b ∈ l', R a b := by
  induction h with
  | nil => exact fun _ ha => absurd ha List.not_mem_nil
  | cons hab _ ih =>
    refine List.forall_mem_cons.mpr ⟨⟨_, List.mem_cons_self .., hab⟩, fun a ha => ?_⟩
    obtain ⟨b, hb, hab⟩ := ih a ha
    exact ⟨b, List.mem_cons_of_mem _ hb, hab⟩

theorem pairwise_of_forall₂ {α β : Type} {R : α → β → Prop} {S : β → β → Prop}
    {T : α → α → Prop} {l : List α} {l' : List β} (h : l.Forall₂ R l') (hS : l'.Pairwise S)
    (hT : ∀ a a' b b', R a b → R a' b' → S b b' → T a a') : l.Pairwise T := by
  induction h with
  | nil => exact .nil
  | cons hab h ih =>
    obtain ⟨hb, hl'⟩ := List.pairwise_cons.mp hS
    refine .cons (fun a' ha' => ?_) (ih hl')
    obtain ⟨b', hb', hab'⟩ := exists_of_forall₂ h a' ha'
    exact hT _ a' _ b' hab hab' (hb b' hb')

section

variable {mem : Mem} {last : ℕ} {l : List ℕ} {b b' : FwModuleFuncBlock} {p p' : ℕ × ℕ}

/-- The entries are ordered as the pairs are: disjoint pairs give disjoint blocks, and nested pairs
nested ones. -/
theorem FwModuleFuncBlock.ClosedAt.before (h : b.ClosedAt mem last p)
    (h' : b'.ClosedAt mem last p') (ho' : bracketAt mem p'.1 = .opens)
    (hbehind : Behind mem last p'.1 p.1) (hp : Bracket.Before p p') : b.Before b' := by
  intro start fin start' fin' hstart hfin hstart' hfin'
  obtain ⟨⟨-, v, s, hr, hs⟩, hf⟩ := h
  obtain ⟨⟨-, v', s', hr', hs'⟩, hf'⟩ := h'
  obtain rfl := Option.some.inj (hs.symm.trans hstart)
  obtain rfl := Option.some.inj (hs'.symm.trans hstart')
  obtain rfl := Option.some.inj (hf.symm.trans hfin)
  obtain rfl := Option.some.inj (hf'.symm.trans hfin')
  have hlt : p.1 + 1 ≤ s := (getu_le hr).1
  have hlt' : p'.1 + 1 ≤ s' := (getu_le hr').1
  refine hp.imp (fun hp => ?_) fun hp => ⟨?_, Nat.succ_lt_succ hp.2⟩
  · exact lt_of_le_of_lt hp hlt'
  · exact lt_of_le_of_lt (hbehind hp.1 _ (next_of_opens ho' hr')) hlt

/-- An entry has a start and an end. -/
theorem FwModuleFuncBlock.ClosedAt.start (h : b.ClosedAt mem last p) :
    ∃ start, b.start = some start ∧ b.fin = some (p.2 + 1) ∧ (bracketAt mem p.1 = .opens →
      instrNext mem ⟨p.1, last⟩ = some ⟨start, last⟩) := by
  obtain ⟨⟨-, v, s, hr, hs⟩, hf⟩ := h
  exact ⟨s, hs, hf, fun ho => next_of_opens ho hr⟩

end

/-- The block lists after a whole walk that visits the positions `l`, with what the walk knows of
them. -/
structure WalkedTo (mem : Mem) (last : ℕ) (l : List ℕ) (s : FuncBlks) : Prop where
  /-- the entries -/
  tracks : Tracks mem last l s
  /-- the cursor only moves on -/
  sorted : l.Pairwise (· < ·)
  /-- behind the immediates -/
  behind : ∀ p ∈ l, ∀ p' ∈ l, Behind mem last p p'
  /-- and inside the body -/
  inside : ∀ p ∈ l, p < last

theorem walkedTo_of_validate {mem : Mem} {body : FwStr} {status : Status} {blks : FuncBlks}
    (hval : (fwModuleValidateInst mem body .init).res = .ok (status, blks))
    (hdec : ∀ p ∈ (fwModuleValidateInst mem body .init).log, bracketAt mem p = .opens →
      ∃ v str, fwStrLebGetu mem ⟨p + 1, body.last⟩ 32 = .got v str) :
    WalkedTo mem body.last (fwModuleValidateInst mem body .init).log blks := by
  obtain ⟨r, hwalk⟩ := walk_of_validateInst hval
  rw [validateInst_log] at hdec ⊢
  obtain ⟨q, hq, hwalk⟩ := walksTo_of_loop hwalk
  obtain ⟨hsorted, hbehind⟩ := sorted_behind (walk_pairwise hwalk).2
  have hinit : Tracks mem body.last [] .init := ⟨.nil, .nil, .nil, fun _ h => by cases h⟩
  exact ⟨walk_tracks hwalk hinit hdec, hsorted, hbehind, fun p hp => (hwalk.next hq p hp).1⟩

namespace WalkedTo

variable {mem : Mem} {last : ℕ} {l : List ℕ} {s : FuncBlks}

/-- A pair is an opcode of a block and a position behind it. -/
theorem closed_mem (h : WalkedTo mem last l s) :
    ∀ p ∈ (Bracket.read (bracketAt mem) l).closed, bracketAt mem p.1 = .opens ∧
      p.1 ∈ l ∧ p.2 ∈ l ∧ p.1 < p.2 := fun p hp =>
  ⟨(Bracket.mem_closed_iff.mp hp).1, (Bracket.ordered_read h.sorted).closed_mem p hp⟩

theorem before (h : WalkedTo mem last l s) :
    s.blk.Pairwise fun id id' => (s.entry id).Before (s.entry id') := by
  have hbefore : (Bracket.read (bracketAt mem) l).closed.Pairwise fun p p' =>
      ∀ b b' : FwModuleFuncBlock, b.ClosedAt mem last p → b'.ClosedAt mem last p' →
        b.Before b' := by
    refine (Bracket.ordered_read h.sorted).closed.imp_of_mem fun hp hp' hpp b b' hb hb' => ?_
    obtain ⟨-, hmem, -, -⟩ := h.closed_mem _ hp
    obtain ⟨ho', hmem', -, -⟩ := h.closed_mem _ hp'
    exact hb.before hb' ho' (h.behind _ hmem' _ hmem) hpp
  exact pairwise_of_forall₂ h.tracks.closed hbefore fun _ _ _ _ hcl hcl' hb => hb _ _ hcl hcl'

theorem bounds (h : WalkedTo mem last l s) :
    ∀ id ∈ s.blk, ∃ start fin, (s.entry id).start = some start ∧ (s.entry id).fin = some fin ∧
      start < fin ∧ fin ≤ last := by
  intro id hid
  obtain ⟨p, hp, hcl⟩ := exists_of_forall₂ h.tracks.closed id hid
  obtain ⟨start, hs, hf, hn⟩ := hcl.start
  obtain ⟨ho, hmem, hmem', hlt⟩ := h.closed_mem p hp
  have hle : start ≤ p.2 := h.behind _ hmem _ hmem' hlt _ (hn ho)
  exact ⟨start, _, hs, hf, Nat.lt_succ_of_le hle, h.inside _ hmem'⟩

theorem distinct (h : WalkedTo mem last l s) :
    (s.blk.map fun id => (s.entry id).start).Nodup := by
  refine List.pairwise_map.mpr (h.before.imp_of_mem fun {id id'} hid hid' hb heq => ?_)
  obtain ⟨start, fin, hs, hf, hlt, -⟩ := h.bounds id hid
  obtain ⟨start', fin', hs', hf', -, -⟩ := h.bounds id' hid'
  obtain rfl := Option.some.inj (hs.symm.trans (heq.trans hs'))
  rcases hb start fin start fin' hs hf hs' hf' with hbefore | hinner
  · exact absurd hlt (Nat.not_lt_of_lt hbefore)
  · exact absurd hinner.1 (lt_irrefl start)

theorem found (h : WalkedTo mem last l s) : ∀ id ∈ s.blk, ∀ start,
    (s.entry id).start = some start → fwInstrFindBlk s start = some (s.entry id) := by
  intro id hid start hstart
  refine find_of_unique hid hstart fun j hj hjs => ?_
  exact List.inj_on_of_nodup_map h.distinct hj hid (hjs.trans hstart.symm)

/-- The block of a matching pair is found by the position behind its block type. -/
theorem found_of_matched (h : WalkedTo mem last l s) {o c : ℕ}
    (hpair : Bracket.Matched (bracketAt mem) l o c) :
    ∃ v start b, fwStrLebGetu mem ⟨o + 1, last⟩ 32 = .got v ⟨start, last⟩ ∧
      fwInstrFindBlk s start = some b ∧ b.fin = some (c + 1) := by
  obtain ⟨id, hid, ⟨-, v, start, hr, hs⟩, hf⟩ :=
    exists_of_forall₂ h.tracks.closed.flip (o, c) (Bracket.mem_closed_iff.mpr hpair)
  exact ⟨v, start, _, hr, h.found id hid start hs, hf⟩

end WalkedTo

/-- The block table of a body whose walk returns (`hval`) and whose block types decode (`hdec`). The
body may hold any bytes: an `end` with nothing open closes the function and is in no pair, and a
block without an `end` is in no entry. Without the condition on block types a block would begin
nowhere. -/
theorem ends_matched {mem : Mem} {body : FwStr} {status : Status} {blks : FuncBlks}
    (hval : (fwModuleValidateInst mem body .init).res = .ok (status, blks))
    (hdec : ∀ p ∈ (fwModuleValidateInst mem body .init).log, bracketAt mem p = .opens →
      ∃ v str, fwStrLebGetu mem ⟨p + 1, body.last⟩ 32 = .got v str) :
    EndsMatched mem body.last (fwModuleValidateInst mem body .init).log blks := by
  have h := walkedTo_of_validate hval hdec
  refine ⟨⟨_, fun o c => Bracket.mem_closed_iff, h.tracks.closed⟩, h.bounds, h.distinct, ?_,
    h.found⟩
  have hsymm : Std.Symm fun id id' => (blks.entry id).Before (blks.entry id') ∨
      (blks.entry id').Before (blks.entry id) := ⟨fun _ _ h => h.symm⟩
  have hboth : blks.blk.Pairwise fun id id' => (blks.entry id).Before (blks.entry id') ∨
      (blks.entry id').Before (blks.entry id) := h.before.imp Or.inl
  exact fun id hid id' hid' hne => hboth.forall hid hid' hne

/-- An `end` too many, an `if` in a `loop`, and a `block` that does not end. -/
def unbalanced : Mem := memOf [0x0b, 0x03, 0x40, 0x04, 0x40, 0x0b, 0x0b, 0x02, 0x40]

/-- The `if` and the `loop` are in the table, and the `block` without an `end` is not. -/
theorem unbalanced_matched :
    EndsMatched unbalanced 9 [0, 1, 3, 5, 6, 7]
      (((((FuncBlks.init.openBlk.setStart 0 3 fwInstrLoop).openBlk.setStart 1 5
        fwInstrIf).pushIf 1).closeBlk 1 6).closeBlk 0 7 |>.openBlk.setStart 2 9 fwInstrBlock) := by
  refine @ends_matched unbalanced ⟨0, 9⟩ .ok _ rfl ?_
  have hdec : ∀ p ∈ [0, 1, 3, 5, 6, 7], bracketAt unbalanced p = .opens →
      ∃ v str, fwStrLebGetu unbalanced ⟨p + 1, 9⟩ 32 = .got v str := by
    intro p hp ho
    simp only [List.mem_cons, List.not_mem_nil, or_false] at hp
    rcases hp with rfl | rfl | rfl | rfl | rfl | rfl
    · cases ho
    · exact ⟨_, _, rfl⟩
    · exact ⟨_, _, rfl⟩
    · cases ho
    · cases ho
    · exact ⟨_, _, rfl⟩
  exact hdec

end FastWasm
