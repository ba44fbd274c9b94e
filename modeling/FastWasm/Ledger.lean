import FastWasm.Fallible
import FastWasm.Ownership
import Mathlib.Data.Finset.Basic
import Mathlib.Data.Finset.Image

/-!
# A ledger of what is held

A program takes blocks and gives them back. Over any type of blocks:

* `Posting`, one entry of its log: a block is taken, or used (`Use`).
* `ledger`, the monitor whose state is what is held: nothing is taken that is held already, and
  nothing is used or freed that is not held. So a log that it accepts has no use behind a `free`,
  and what is left at its end is what was taken and never given back.
* `Balances`, from what is held before a log to what is held behind it: `Balances.takes` and
  `Balances.uses` are the two ways in which a list of blocks comes and goes.
* `Tries`, triples for programs that may fail, and `recover`, which runs one and goes on with its
  label `err` where it fails.

An allocation that finds no room is a failure like any other, so a leak is a set of held blocks at
an exit, and which exits leak is part of a postcondition. The names of the blocks are the program's
own: a block that is allocated anew under an old name is a new block only if the old one is no
longer held, which the ledger asks for.
-/

namespace Ownership

open Logged (Monitor Outcome Fallible)

variable {α β η σ : Type}

/-! ## Renaming blocks

A log of uses is said about the blocks of one structure. As a part of a larger one the blocks have
other names. -/

/-- The same use, of a block with another name under `f`. -/
def Use.map (f : α → β) : Use α → Use β
  | .touch a j => .touch (f a) j
  | .free a => .free (f a)

@[simp] theorem Use.addr_touch (a : α) (j : ℕ) : (Use.touch a j).addr = a := rfl

@[simp] theorem Use.addr_free (a : α) : (Use.free a).addr = a := rfl

@[simp] theorem Use.addr_map (f : α → β) (u : Use α) : (u.map f).addr = f u.addr := by
  cases u <;> rfl

@[simp] theorem Use.freed_map (f : α → β) (u : Use α) : (u.map f).freed = u.freed.map f := by
  cases u <;> rfl

theorem freed_map (f : α → β) (us : List (Use α)) :
    freed (us.map (Use.map f)) = (freed us).map f := by
  induction us with
  | nil => rfl
  | cons u us ih => cases u <;> simp [Use.map, ih]

theorem Tidy.map {f : α → β} (hf : Function.Injective f) {us : List (Use α)} (h : Tidy us) :
    Tidy (us.map (Use.map f)) := by
  refine List.pairwise_map.mpr (h.imp fun {u u'} hne heq => hne ?_)
  rw [Use.freed_map, Use.addr_map, ← Option.map_some] at heq
  exact Option.map_injective hf heq

/-! ## The ledger

What is held is the state of a monitor. It accepts that something is taken which is not held, and
that something is used or given back which is. -/

/-- One entry of a ledger: a block is taken, or a block that is held is used. -/
inductive Posting (α : Type) where
  /-- the block is taken -/
  | take (a : α)
  /-- the block is used -/
  | use (u : Use α)
  deriving DecidableEq, Repr

variable [DecidableEq α]

/-- What is held. The state is a finite set of blocks, and an entry is allowed only where it makes
sense for that set. -/
def ledger : Monitor (Finset α) (Posting α) where
  step held
    | .take a => insert a held
    | .use (.touch _ _) => held
    | .use (.free a) => held.erase a
  ok held
    | .take a => a ∉ held
    | .use u => u.addr ∈ held

/-- Take blocks, one after the other, in the order of the list. -/
def takeAll (as : List α) : Logged (Posting α) η σ PUnit := fun s => ⟨as.map .take, .ok (⟨⟩, s)⟩

/-- From what is held before to what is held behind it, a log is accepted. Balances of consecutive
logs compose (`Balances.append`). -/
def Balances (held : Finset α) (log : List (Posting α)) (held' : Finset α) : Prop :=
  ledger.Accepts held log ∧ ledger.after held log = held'

namespace Balances

variable {held held₁ held' : Finset α} {log log' : List (Posting α)}

theorem nil (held : Finset α) : Balances held [] held := ⟨trivial, rfl⟩

theorem append (h : Balances held log held₁) (h' : Balances held₁ log' held') :
    Balances held (log ++ log') held' := by
  obtain ⟨hacc, rfl⟩ := h
  obtain ⟨hacc', rfl⟩ := h'
  exact ⟨(ledger.accepts_append ..).mpr ⟨hacc, hacc'⟩, ledger.after_append ..⟩

theorem take {a : α} (ha : a ∉ held) : Balances held [.take a] (insert a held) :=
  ⟨⟨ha, trivial⟩, rfl⟩

theorem free {a : α} (ha : a ∈ held) : Balances held [.use (.free a)] (held.erase a) :=
  ⟨⟨ha, trivial⟩, rfl⟩

/-- New blocks, one after the other, are all held in the end. -/
theorem takes {as : List α} (hnodup : as.Nodup) (hnew : ∀ a ∈ as, a ∉ held) :
    Balances held (as.map .take) (held ∪ as.toFinset) := by
  induction as generalizing held with
  | nil => exact ⟨trivial, by simp⟩
  | cons a as ih =>
    obtain ⟨ha, hnodup⟩ := List.nodup_cons.mp hnodup
    obtain ⟨hanew, hnew⟩ := List.forall_mem_cons.mp hnew
    have hnew : ∀ b ∈ as, b ∉ insert a held := fun b hb => by
      rw [Finset.mem_insert, not_or]
      exact ⟨fun h => ha (h ▸ hb), hnew b hb⟩
    have hset : insert a held ∪ as.toFinset = held ∪ (a :: as).toFinset := by
      rw [List.toFinset_cons, Finset.insert_union, Finset.union_insert]
    exact hset ▸ (take hanew).append (ih hnodup hnew)

/-- A tidy log that uses blocks which are held gives back what it frees. -/
theorem uses {us : List (Use α)} (htidy : Tidy us) (hheld : ∀ u ∈ us, u.addr ∈ held) :
    Balances held (us.map .use) (held \ (freed us).toFinset) := by
  induction us generalizing held with
  | nil => exact ⟨trivial, by simp⟩
  | cons u us ih =>
    obtain ⟨hapart, hrest⟩ := List.pairwise_cons.mp htidy
    obtain ⟨hu, hused⟩ := List.forall_mem_cons.mp hheld
    cases u with
    | touch a j =>
      obtain ⟨hacc, hafter⟩ := ih hrest hused
      exact ⟨⟨hu, hacc⟩, hafter⟩
    | free a =>
      have hused : ∀ u ∈ us, u.addr ∈ held.erase a := fun u hmem =>
        Finset.mem_erase.mpr ⟨fun h => hapart u hmem (congrArg some h.symm), hused u hmem⟩
      have hset : held.erase a \ (freed us).toFinset =
          held \ (freed (.free a :: us)).toFinset := by
        rw [freed_free, List.toFinset_cons, Finset.sdiff_insert, Finset.erase_sdiff_comm]
      exact hset ▸ (free hu).append (ih hrest hused)

end Balances

/-! ## Programs that may fail

With two postconditions, one for a success and one for a failure, since what is held in the two
cases is different. -/

/-- From what is held and the state in `P` to the same in `Q`, or in `E` where the program fails,
and every use on the way is of a block that is held. `E` is what the label `err` finds. -/
def Tries (P : Finset α → σ → Prop) (m : Fallible (Posting α) η σ β)
    (Q E : Finset α → σ → Prop) : Prop :=
  Logged.Triple ledger P m (fun r => if r.isSome then Q else E) fun _ _ => True

namespace Tries

variable {γ : Type} {P Q R E : Finset α → σ → Prop} {m m' : Fallible (Posting α) η σ β}

/-- A program that neither takes nor uses anything holds what it held. -/
theorem of_log (hlog : ∀ s, (m s).log = [])
    (hQ : ∀ held s b s', P held s → Logged.Fallible.Runs m s b s' → Q held s')
    (hE : ∀ held s s', P held s → (m s).res = .ok (none, s') → E held s') : Tries P m Q E := by
  intro held s hs
  rw [hlog]
  refine ⟨trivial, ?_⟩
  rcases hr : (m s).res with e | ⟨_ | b, s'⟩
  · trivial
  · exact hE held s s' hs hr
  · exact hQ held s b s' hs hr

theorem fail (h : ∀ held s, P held s → E held s) :
    Tries P (Logged.Fallible.fail : Fallible (Posting α) η σ β) Q E :=
  of_log (fun _ => rfl) (fun _ _ _ _ _ hr => by cases hr) fun _ _ _ hs hr => by
    cases hr
    exact h _ _ hs

theorem pure {b : β} (h : ∀ held s, P held s → Q held s) :
    Tries P (pure b : Fallible (Posting α) η σ β) Q E :=
  of_log (fun _ => rfl) (fun _ _ _ _ hs hr => by cases hr; exact h _ _ hs)
    fun _ _ _ _ hr => by cases hr

theorem halt (e : η) : Tries P (Logged.Fallible.halt e : Fallible (Posting α) η σ β) Q E :=
  of_log (fun _ => rfl) (fun _ _ _ _ _ hr => by cases hr) fun _ _ _ _ hr => by cases hr

theorem check {p : Prop} [Decidable p] (h : ∀ held s, P held s → E held s) :
    Tries P (Logged.Fallible.check p : Fallible (Posting α) η σ PUnit) P E := by
  rw [Logged.Fallible.check]
  split_ifs
  · exact pure fun _ _ hs => hs
  · exact fail h

theorem modify {g : σ → σ} (h : ∀ held s, P held s → Q held (g s)) :
    Tries P (Logged.Fallible.modify g : Fallible (Posting α) η σ PUnit) Q E :=
  of_log (fun _ => rfl) (fun _ _ _ _ hs hr => by cases hr; exact h _ _ hs)
    fun _ _ _ _ hr => by cases hr

theorem ite {c : Prop} [Decidable c] (h : Tries P m Q E) (h' : Tries P m' Q E) :
    Tries P (if c then m else m') Q E := by
  split_ifs
  · exact h
  · exact h'

/-- Sequencing. -/
theorem bind {f : β → Fallible (Posting α) η σ γ} (hm : Tries P m R E)
    (hf : ∀ b, Tries R (f b) Q E) : Tries P (m >>= f) Q E := by
  intro held s hs
  obtain ⟨hacc, hends⟩ := hm held s hs
  have hbind : (m >>= f) s = Logged.Fallible.bind m f s := rfl
  rw [hbind, Logged.Fallible.bind]
  rcases hr : (m s).res with e | ⟨_ | b, s'⟩ <;> rw [hr] at hends <;> simp only
  · exact ⟨hacc, trivial⟩
  · exact ⟨hacc, hends⟩
  · obtain ⟨hacc', hends'⟩ := hf b _ s' hends
    rw [ledger.accepts_append, ledger.after_append]
    exact ⟨⟨hacc, hacc'⟩, hends'⟩

/-- Reading the state. -/
theorem get_bind {f : σ → Fallible (Posting α) η σ β} (h : ∀ s, Tries P (f s) Q E) :
    Tries P (Logged.Fallible.get >>= f) Q E :=
  bind (of_log (fun _ => rfl) (fun _ _ _ _ hs hr => by cases hr; exact hs)
    fun _ _ _ _ hr => by cases hr) h

end Tries

/-- Run a program that may fail over a state of its own. Where it fails, `err` goes on from the
state it has reached, as the code behind a label does with the local variables of its function. -/
def recover {ε τ : Type} (m : Fallible ε η τ β) (t : τ) (err : τ → Logged ε η σ PUnit) :
    Logged ε η σ (Option β) := fun s =>
  match (m t).res with
  | .error e => ⟨(m t).log, .error e⟩
  | .ok (some b, _) => ⟨(m t).log, .ok (some b, s)⟩
  | .ok (none, t') =>
    match (err t' s).res with
    | .error e => ⟨(m t).log ++ (err t' s).log, .error e⟩
    | .ok (_, s') => ⟨(m t).log ++ (err t' s).log, .ok (none, s')⟩

/-- What is held where a program fails is what its `err` goes on with. So the two exits of a
function are one postcondition on the option that it returns. -/
theorem Tries.recover {τ : Type} {I Q E : Finset α → τ → Prop} {P : Finset α → σ → Prop}
    {R : Option β → Finset α → σ → Prop} {m : Fallible (Posting α) η τ β} {t : τ}
    {err : τ → Logged (Posting α) η σ PUnit} (hm : Tries I m Q E)
    (hstart : ∀ held s, P held s → I held t)
    (hok : ∀ b t' held s, Logged.Fallible.Runs m t b t' → Q held t' → R (some b) held s)
    (herr : ∀ t', Logged.Triple ledger (fun held _ => E held t') (err t') (fun _ => R none)
      fun _ _ => True) :
    Logged.Triple ledger P (recover m t err) R fun _ _ => True := by
  intro held s hs
  obtain ⟨hacc, hends⟩ := hm held t (hstart held s hs)
  rw [Ownership.recover]
  rcases hr : (m t).res with e | ⟨_ | b, t'⟩ <;> rw [hr] at hends <;> simp only
  · exact ⟨hacc, trivial⟩
  · obtain ⟨hacc', hends'⟩ := herr t' _ s hends
    rcases hr' : (err t' s).res with e | ⟨u, s'⟩ <;> rw [hr'] at hends' <;>
      simp only [ledger.accepts_append, ledger.after_append]
    · exact ⟨⟨hacc, hacc'⟩, trivial⟩
    · exact ⟨⟨hacc, hacc'⟩, hends'⟩
  · exact ⟨hacc, hok b t' _ s hr hends⟩

end Ownership
