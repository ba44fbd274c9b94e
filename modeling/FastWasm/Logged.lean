import Mathlib.Data.List.Basic

/-!
# Logged computations and their monitored triples

A small program logic over nothing but types. Three layers:

* `Logged ε η σ α` is a computation over states `σ` that writes a log of events `ε`, and either
  returns an `α` or halts with a reason `η`. The log of a computation that halts is kept, so a fact
  about every step of a run is a fact about its log, also for a run that never returns.
* `Monitor γ ε` is a safety automaton: it reads a log from left to right, and says of every event
  whether it is allowed in the state the events before it led to.
* `Triple M P m Q H` says that from a state in `P` the monitor `M` allows every event of `m`, that
  `Q` holds when `m` returns, and `H` when it halts. One rule for each way of building a
  computation.

The assertions of a triple are about the state of the monitor and that of the computation together.
The monitor's state is what a proof wants to remember of the past and the program does not: which
functions are entered, how many instructions were fetched, which blocks are held. A run of a program
with a step bound halts where the bound is reached, so a property that is to hold of every run, also
of one that does not end, is one that the monitor asks of every event.

`Given` is the same under the assumption that the monitor allows all events: the conditions on the
steps of a run are then hypotheses about its log.
-/

namespace Logged

universe u v w

/-- What one run leaves behind: the events it wrote, and how it ended, with a value and a state or
with the reason of a halt. -/
structure Outcome (ε η σ α : Type u) where
  /-- the events, in order -/
  log : List ε
  /-- the reason it halted, or the value and the state it returned -/
  res : Except η (α × σ)

/-- Outcomes are determined by their log and their result. -/
theorem Outcome.ext {ε η σ α : Type u} {o o' : Outcome ε η σ α}
    (hl : o.log = o'.log) (hr : o.res = o'.res) : o = o' := by
  cases o; cases o'
  subst hl; subst hr
  rfl

end Logged

/-- A computation over states `σ` that logs events `ε` and may halt with an `η`. A halt is final,
and no state is left behind; what was logged before it is kept. -/
def Logged (ε η σ α : Type u) : Type u := σ → Logged.Outcome ε η σ α

namespace Logged

variable {ε η σ α β δ : Type u}

/-! ## The monad

A computation maps a state to its log and its result. A halt has no state, and what was logged
before it stays. -/

/-- Return a value: no event, the same state. -/
protected def pure (a : α) : Logged ε η σ α := fun s => ⟨[], .ok (a, s)⟩

/-- Run `m`, then `f` on what it returned; a halt of `m` is a halt of the whole. -/
protected def bind (m : Logged ε η σ α) (f : α → Logged ε η σ β) : Logged ε η σ β := fun s =>
  match (m s).res with
  | .error h => ⟨(m s).log, .error h⟩
  | .ok (a, s') => ⟨(m s).log ++ (f a s').log, (f a s').res⟩

instance : Monad (Logged ε η σ) where
  pure := Logged.pure
  bind := Logged.bind

/-- Write one event. -/
def emit (e : ε) : Logged ε η σ PUnit := fun s => ⟨[e], .ok (⟨⟩, s)⟩

/-- Stop the whole computation. -/
def halt (h : η) : Logged ε η σ α := fun _ => ⟨[], .error h⟩

/-- Read the state. -/
def get : Logged ε η σ σ := fun s => ⟨[], .ok (s, s)⟩

/-- Replace the state. -/
def set (s : σ) : Logged ε η σ PUnit := fun _ => ⟨[], .ok (⟨⟩, s)⟩

@[simp] theorem pure_apply (a : α) (s : σ) :
    (pure a : Logged ε η σ α) s = ⟨[], .ok (a, s)⟩ := rfl

@[simp] theorem emit_apply (e : ε) (s : σ) :
    (emit e : Logged ε η σ PUnit) s = ⟨[e], .ok (⟨⟩, s)⟩ := rfl

@[simp] theorem halt_apply (h : η) (s : σ) :
    (halt h : Logged ε η σ α) s = ⟨[], .error h⟩ := rfl

@[simp] theorem get_apply (s : σ) : (get : Logged ε η σ σ) s = ⟨[], .ok (s, s)⟩ := rfl

@[simp] theorem set_apply (s s' : σ) : (set s' : Logged ε η σ PUnit) s = ⟨[], .ok (⟨⟩, s')⟩ := rfl

/-- Sequencing after a return: the rest goes on from there, with its log behind. -/
theorem bind_of_ok {m : Logged ε η σ α} {f : α → Logged ε η σ β} {s s' : σ} {a : α}
    (h : (m s).res = .ok (a, s')) :
    (m >>= f) s = ⟨(m s).log ++ (f a s').log, (f a s').res⟩ := by
  change Logged.bind m f s = _
  rw [Logged.bind]
  rw [h]

/-- Sequencing after a halt: nothing more is done or logged. -/
theorem bind_of_error {m : Logged ε η σ α} {f : α → Logged ε η σ β} {s : σ} {e : η}
    (h : (m s).res = .error e) : (m >>= f) s = ⟨(m s).log, .error e⟩ := by
  change Logged.bind m f s = _
  rw [Logged.bind]
  rw [h]

/-- Sequencing, once the first outcome is known in full. -/
theorem bind_eq {m : Logged ε η σ α} {f : α → Logged ε η σ β} {s s' : σ} {a : α} {l : List ε}
    (h : m s = ⟨l, .ok (a, s')⟩) : (m >>= f) s = ⟨l ++ (f a s').log, (f a s').res⟩ := by
  rw [bind_of_ok (by rw [h]), h]

@[simp] theorem pure_bind (a : α) (f : α → Logged ε η σ β) : pure a >>= f = f a := by
  funext s
  exact bind_eq (pure_apply a s)

@[simp] theorem halt_bind (h : η) (f : α → Logged ε η σ β) :
    (halt h : Logged ε η σ α) >>= f = halt h := by
  funext s
  exact bind_of_error rfl

@[simp] theorem get_bind_apply (f : σ → Logged ε η σ β) (s : σ) : (get >>= f) s = f s s :=
  bind_eq (get_apply s)

@[simp] theorem set_bind_apply (f : PUnit → Logged ε η σ β) (s s' : σ) :
    (set s' >>= f) s = f ⟨⟩ s' :=
  bind_eq (set_apply s s')

@[simp] theorem emit_bind_apply (e : ε) (f : PUnit → Logged ε η σ β) (s : σ) :
    (emit e >>= f) s = ⟨e :: (f ⟨⟩ s).log, (f ⟨⟩ s).res⟩ :=
  bind_eq (emit_apply e s)

/-- Inversion for sequencing: a run that returned passed through a middle state, and its log is that
of the two parts. -/
theorem bind_eq_ok {m : Logged ε η σ α} {f : α → Logged ε η σ β} {s s' : σ} {b : β}
    (h : ((m >>= f) s).res = .ok (b, s')) :
    ∃ a s₁, (m s).res = .ok (a, s₁) ∧ (f a s₁).res = .ok (b, s') ∧
      ((m >>= f) s).log = (m s).log ++ (f a s₁).log := by
  rcases hm : (m s).res with e | ⟨a, s₁⟩
  · rw [bind_of_error hm] at h
    cases h
  · rw [bind_of_ok hm] at h ⊢
    exact ⟨a, s₁, rfl, h, rfl⟩

/-- A run that returns, whatever it returns. The lemmas below take such a statement apart along a
computation. -/
def Returns (m : Logged ε η σ α) (s : σ) : Prop := ∃ a s', (m s).res = .ok (a, s')

/-- Associativity, as outcomes and not up to anything. -/
theorem bind_assoc (m : Logged ε η σ α) (f : α → Logged ε η σ β) (g : β → Logged ε η σ δ) :
    (m >>= f) >>= g = m >>= fun a => f a >>= g := by
  funext s
  rcases hm : (m s).res with e | ⟨a, s₁⟩
  · rw [bind_of_error hm, bind_of_error (by rw [bind_of_error hm]), bind_of_error hm]
  · rcases hf : (f a s₁).res with e | ⟨b, s₂⟩
    · have hmf : ((m >>= f) s).res = .error e := by rw [bind_of_ok hm]; exact hf
      rw [bind_of_error hmf, bind_of_ok hm, bind_of_ok hm]
      rw [bind_of_error hf]
    · have hmf : ((m >>= f) s).res = .ok (b, s₂) := by rw [bind_of_ok hm]; exact hf
      rw [bind_of_ok hmf, bind_of_ok hm, bind_of_ok hm]
      rw [bind_of_ok hf]
      exact Outcome.ext (List.append_assoc ..) rfl

/-- Sequencing after a choice is a choice of sequences. -/
theorem ite_bind {c : Prop} [Decidable c] (m m' : Logged ε η σ α) (f : α → Logged ε η σ β) :
    (if c then m else m') >>= f = if c then m >>= f else m' >>= f := by
  split <;> rfl

/-! ## What a computation leaves alone

One statement for a part of the state that is not changed and for events that do not come up, since
the two are needed together. -/

/-- `m` logs events in `E` only, and when it returns, what `obs` sees is as before. It is the frame
condition of a computation, stated without a precondition so that it is proved once. -/
def Spares {ω : Type w} (E : ε → Prop) (obs : σ → ω) (m : Logged ε η σ α) : Prop :=
  ∀ s, (∀ e ∈ (m s).log, E e) ∧ ∀ a s', (m s).res = .ok (a, s') → obs s' = obs s

namespace Spares

variable {ω : Type w} {E : ε → Prop} {obs : σ → ω} {m m' : Logged ε η σ α}

/-- From outcomes that are known in full: each is a halt or a return, with its log written out. -/
theorem of_apply (h : ∀ s, (∃ l e, m s = ⟨l, .error e⟩ ∧ ∀ e ∈ l, E e) ∨
    ∃ l a s', m s = ⟨l, .ok (a, s')⟩ ∧ (∀ e ∈ l, E e) ∧ obs s' = obs s) : Spares E obs m := by
  intro s
  rcases h s with ⟨l, e, hm, hl⟩ | ⟨l, a, s₁, hm, hl, hobs⟩ <;> rw [hm]
  · exact ⟨hl, fun _ _ h => by cases h⟩
  · refine ⟨hl, fun _ _ h => ?_⟩
    obtain ⟨-, rfl⟩ := Prod.mk.inj (Except.ok.inj h)
    exact hobs

theorem pure (a : α) : Spares E obs (pure a : Logged ε η σ α) := of_apply fun s =>
  .inr ⟨[], a, s, rfl, List.forall_mem_nil _, rfl⟩

theorem halt (h : η) : Spares E obs (halt h : Logged ε η σ α) := of_apply fun _ =>
  .inl ⟨[], h, rfl, List.forall_mem_nil _⟩

theorem emit {e : ε} (he : E e) : Spares E obs (emit e : Logged ε η σ PUnit) := of_apply fun s =>
  .inr ⟨[e], ⟨⟩, s, rfl, List.forall_mem_singleton.mpr he, rfl⟩

theorem bind {f : α → Logged ε η σ β} (hm : Spares E obs m) (hf : ∀ a, Spares E obs (f a)) :
    Spares E obs (m >>= f) := by
  intro s
  rcases hr : (m s).res with h | ⟨a, s₁⟩
  · rw [bind_of_error hr]
    exact ⟨(hm s).1, fun _ _ h => by cases h⟩
  · rw [bind_of_ok hr]
    refine ⟨List.forall_mem_append.mpr ⟨(hm s).1, (hf a s₁).1⟩, fun b s' h => ?_⟩
    rw [(hf a s₁).2 b s' h, (hm s).2 a s₁ hr]

theorem ite {c : Prop} [Decidable c] (h : c → Spares E obs m) (h' : ¬ c → Spares E obs m') :
    Spares E obs (if c then m else m') := by
  by_cases hc : c
  · rw [if_pos hc]
    exact h hc
  · rw [if_neg hc]
    exact h' hc

/-- More events, and less to see, follow from less events and more to see. -/
theorem mono {ω' : Type w} {E' : ε → Prop} {obs' : σ → ω'} (h : Spares E obs m)
    (hE : ∀ e, E e → E' e) (hobs : ∀ s s', obs s' = obs s → obs' s' = obs' s) :
    Spares E' obs' m :=
  fun s => ⟨fun e he => hE e ((h s).1 e he), fun a s' hr => hobs s s' ((h s).2 a s' hr)⟩

/-- What is seen after a computation that returned. -/
theorem ok (h : Spares E obs m) {s s' : σ} {a : α} (hr : (m s).res = .ok (a, s')) :
    obs s' = obs s :=
  (h s).2 a s' hr

end Spares

/-! ## Monitors

A monitor reads a log from left to right. It has a state, and says of each event whether it is
allowed there. -/

/-- A safety automaton over events: how an event moves it, and which events it allows. It moves on
an event that it does not allow as well. -/
structure Monitor (γ : Type v) (ε : Type u) where
  /-- the state after an event -/
  step : γ → ε → γ
  /-- the events allowed in a state -/
  ok : γ → ε → Prop

namespace Monitor

variable {γ : Type v} (M : Monitor γ ε)

/-- The state after a whole log, allowed or not. -/
def after (g : γ) (l : List ε) : γ := l.foldl M.step g

/-- Every event of the log is allowed where it occurs, that is in the state that the events before
it lead to. -/
def Accepts : γ → List ε → Prop
  | _, [] => True
  | g, e :: l => M.ok g e ∧ Accepts (M.step g e) l

@[simp] theorem after_nil (g : γ) : M.after g [] = g := rfl

@[simp] theorem after_cons (g : γ) (e : ε) (l : List ε) :
    M.after g (e :: l) = M.after (M.step g e) l := rfl

/-- Events that do not move the monitor leave it where it was, however many. -/
theorem after_eq_self {E : ε → Prop} (hE : ∀ g e, E e → M.step g e = g) {g : γ} {l : List ε}
    (hl : ∀ e ∈ l, E e) : M.after g l = g := by
  induction l with
  | nil => rfl
  | cons e l ih =>
    obtain ⟨he, hl⟩ := List.forall_mem_cons.mp hl
    rw [after_cons, hE g e he]
    exact ih hl

theorem after_append (g : γ) (l l' : List ε) : M.after g (l ++ l') = M.after (M.after g l) l' :=
  List.foldl_append ..

@[simp] theorem accepts_nil (g : γ) : M.Accepts g [] ↔ True := Iff.rfl

@[simp] theorem accepts_cons (g : γ) (e : ε) (l : List ε) :
    M.Accepts g (e :: l) ↔ M.ok g e ∧ M.Accepts (M.step g e) l := Iff.rfl

theorem accepts_append (g : γ) (l l' : List ε) :
    M.Accepts g (l ++ l') ↔ M.Accepts g l ∧ M.Accepts (M.after g l) l' := by
  induction l generalizing g with
  | nil => simp
  | cons e l ih => simp only [List.cons_append, accepts_cons, after_cons, ih, and_assoc]

/-- An accepted log allows each event in the state its prefix leads to. This is how a fact about one
step of a run is read off a triple. -/
theorem Accepts.at {M : Monitor γ ε} {g : γ} {pre post : List ε} {e : ε}
    (h : M.Accepts g (pre ++ e :: post)) : M.ok (M.after g pre) e :=
  ((M.accepts_append g pre (e :: post)).mp h).2.1

/-- The same, for the event at an index: it is allowed in the state after what comes before it. -/
theorem Accepts.at_index {M : Monitor γ ε} {g : γ} {l : List ε} {k : ℕ} {e : ε}
    (h : M.Accepts g l) (hk : l[k]? = some e) : M.ok (M.after g (l.take k)) e := by
  obtain ⟨hlt, rfl⟩ := List.getElem?_eq_some_iff.mp hk
  rw [← List.take_append_drop k l, List.drop_eq_getElem_cons hlt] at h
  exact h.at

/-- What every allowed event has, every event of an accepted log has. -/
theorem Accepts.forall {M : Monitor γ ε} {p : ε → Prop} (hp : ∀ g e, M.ok g e → p e) {g : γ}
    {l : List ε} (h : M.Accepts g l) : ∀ e ∈ l, p e := by
  induction l generalizing g with
  | nil => exact fun _ he => by cases he
  | cons e l ih => exact List.forall_mem_cons.mpr ⟨hp g e h.1, ih h.2⟩

/-- A set of states that is never left, and where every event is allowed, accepts everything. It is
the way out of a property that has a limited time: behind its end the monitor rests in such a set.
-/
theorem accepts_of_closed {S : γ → Prop} (hok : ∀ g e, S g → M.ok g e)
    (hstep : ∀ g e, S g → S (M.step g e)) {g : γ} (hg : S g) (l : List ε) :
    M.Accepts g l ∧ S (M.after g l) := by
  induction l generalizing g with
  | nil => exact ⟨trivial, hg⟩
  | cons e l ih =>
    obtain ⟨h1, h2⟩ := ih (hstep g e hg)
    exact ⟨⟨hok g e hg, h1⟩, h2⟩

/-- The monitor that remembers everything and allows everything. With it the assertions of a triple
speak of the whole log so far, for facts that no small state can follow. -/
def history : Monitor (List ε) ε where
  step l e := l ++ [e]
  ok _ _ := True

@[simp] theorem history_after (l l' : List ε) : history.after l l' = l ++ l' := by
  induction l' generalizing l with
  | nil => exact (List.append_nil l).symm
  | cons e l' ih => rw [after_cons, ih, history, List.append_assoc, List.singleton_append]

theorem history_accepts (l l' : List ε) : history.Accepts l l' :=
  (history.accepts_of_closed (S := fun _ => True) (fun _ _ _ => trivial) (fun _ _ _ => trivial)
    trivial l').1

end Monitor

/-! ## Monitored triples

The log of a computation is accepted, and the state of the monitor and that of the computation are
as claimed behind it. Halts have an assertion of their own, over the monitor alone. -/

section Triples

variable {γ : Type v} {M : Monitor γ ε} {P P' : γ → σ → Prop} {H : η → γ → Prop}
  {m : Logged ε η σ α} {Q Q' : α → γ → σ → Prop}

/-- What an ended run owes: `Q` when it returned, `H` when it halted. -/
def Ends (Q : α → γ → σ → Prop) (H : η → γ → Prop) (g : γ) : Except η (α × σ) → Prop
  | .ok (a, s) => Q a g s
  | .error h => H h g

/-- From `P`, the monitor allows all of `m`, which ends in `Q`, or halts in `H`. What is owed at a
halt is about the monitor only, for no state is left. -/
def Triple (M : Monitor γ ε) (P : γ → σ → Prop) (m : Logged ε η σ α)
    (Q : α → γ → σ → Prop) (H : η → γ → Prop) : Prop :=
  ∀ g s, P g s → M.Accepts g (m s).log ∧ Ends Q H (M.after g (m s).log) (m s).res

namespace Triple

/-- Consequence. -/
theorem conseq (h : Triple M P m Q H) (hP : ∀ g s, P' g s → P g s)
    (hQ : ∀ a g s, Q a g s → Q' a g s) : Triple M P' m Q' H := by
  intro g s hs
  obtain ⟨hl, hr⟩ := h g s (hP g s hs)
  refine ⟨hl, ?_⟩
  rcases hm : (m s).res with e | ⟨a, s'⟩ <;> rw [hm] at hr
  · exact hr
  · exact hQ _ _ _ hr

theorem pre (h : Triple M P m Q H) (hP : ∀ g s, P' g s → P g s) : Triple M P' m Q H :=
  h.conseq hP fun _ _ _ hq => hq

theorem post (h : Triple M P m Q H) (hQ : ∀ a g s, Q a g s → Q' a g s) : Triple M P m Q' H :=
  h.conseq (fun _ _ hp => hp) hQ

/-- What is owed when a computation halts, for the reasons it can halt with. -/
theorem halts {H' : η → γ → Prop} (h : Triple M P m Q H)
    (hH : ∀ s e, (m s).res = .error e → ∀ g, H e g → H' e g) : Triple M P m Q H' := by
  intro g s hs
  obtain ⟨hl, hr⟩ := h g s hs
  refine ⟨hl, ?_⟩
  rcases hm : (m s).res with e | ⟨a, s'⟩ <;> rw [hm] at hr
  · exact hH s e hm _ hr
  · exact hr

/-- Fix the states a triple starts from. A computation that reads its state first can then be
evaluated at it. -/
theorem of_points
    (h : ∀ g₀ s₀, P g₀ s₀ → Triple M (fun g s => g = g₀ ∧ s = s₀) m Q H) : Triple M P m Q H :=
  fun g s hs => h g s hs g s ⟨rfl, rfl⟩

/-- Sequencing. -/
theorem bind {R : α → γ → σ → Prop} {f : α → Logged ε η σ β} {Q : β → γ → σ → Prop}
    (hm : Triple M P m R H) (hf : ∀ a, Triple M (R a) (f a) Q H) : Triple M P (m >>= f) Q H := by
  intro g s hs
  obtain ⟨hl, hr⟩ := hm g s hs
  rcases he : (m s).res with e | ⟨a, s'⟩ <;> rw [he] at hr
  · rw [bind_of_error he]
    exact ⟨hl, hr⟩
  · obtain ⟨hl', hr'⟩ := hf a _ s' hr
    rw [bind_of_ok he]
    rw [M.accepts_append, M.after_append]
    exact ⟨⟨hl, hl'⟩, hr'⟩

protected theorem pure {a : α} (h : ∀ g s, P g s → Q a g s) :
    Triple M P (pure a : Logged ε η σ α) Q H :=
  fun g s hs => ⟨trivial, h g s hs⟩

protected theorem halt {e : η} (h : ∀ g s, P g s → H e g) :
    Triple M P (halt e : Logged ε η σ α) Q H :=
  fun g s hs => ⟨trivial, h g s hs⟩

protected theorem emit {e : ε} {Q : PUnit → γ → σ → Prop}
    (h : ∀ g s, P g s → M.ok g e ∧ Q ⟨⟩ (M.step g e) s) :
    Triple M P (emit e : Logged ε η σ PUnit) Q H :=
  fun g s hs => ⟨⟨(h g s hs).1, trivial⟩, (h g s hs).2⟩

protected theorem set {s' : σ} {Q : PUnit → γ → σ → Prop} (h : ∀ g s, P g s → Q ⟨⟩ g s') :
    Triple M P (set s' : Logged ε η σ PUnit) Q H :=
  fun g s hs => ⟨trivial, h g s hs⟩

/-- Reading the state names it for what follows. -/
theorem get_bind {f : σ → Logged ε η σ β} {Q : β → γ → σ → Prop}
    (h : ∀ s₀, Triple M (fun g s => P g s ∧ s = s₀) (f s₀) Q H) : Triple M P (get >>= f) Q H := by
  intro g s hs
  rw [get_bind_apply]
  exact h s g s ⟨hs, rfl⟩

/-- An event, then the rest. -/
theorem emit_bind {e : ε} {f : PUnit → Logged ε η σ β} {Q : β → γ → σ → Prop}
    {R : γ → σ → Prop} (he : ∀ g s, P g s → M.ok g e ∧ R (M.step g e) s)
    (hf : Triple M R (f ⟨⟩) Q H) : Triple M P (emit e >>= f) Q H :=
  bind (R := fun _ => R) (Triple.emit he) fun _ => hf

/-- Something the precondition says exists, moved into the context. -/
theorem of_exists {ι : Type} {P : ι → γ → σ → Prop} (h : ∀ i, Triple M (P i) m Q H) :
    Triple M (fun g s => ∃ i, P i g s) m Q H :=
  fun g s ⟨i, hs⟩ => h i g s hs

/-- A pure fact of the precondition, moved into the context. -/
theorem of_and {p : Prop} (h : p → Triple M P m Q H) :
    Triple M (fun g s => p ∧ P g s) m Q H :=
  fun g s hs => h hs.1 g s hs.2

/-- A fact about results that holds without the triple. -/
theorem and_res {R : α → σ → Prop} (h : Triple M P m Q H)
    (hR : ∀ g s, P g s → ∀ a s', (m s).res = .ok (a, s') → R a s') :
    Triple M P m (fun a g s => Q a g s ∧ R a s) H := by
  intro g s hs
  obtain ⟨hacc, hends⟩ := h g s hs
  refine ⟨hacc, ?_⟩
  rcases hr : (m s).res with e | ⟨a, s'⟩ <;> rw [hr] at hends
  · exact hends
  · exact ⟨hends, hR g s hs a s' hr⟩

/-- Once the monitor is in a set of states that is never left, where it allows everything, only the
last states matter. -/
theorem of_closed {S : γ → Prop} (hok : ∀ g e, S g → M.ok g e) (hstep : ∀ g e, S g → S (M.step g e))
    (hP : ∀ g s, P g s → S g) (hQ : ∀ a g s, S g → Q a g s) (hH : ∀ h g, S g → H h g) :
    Triple M P m Q H := by
  intro g s hs
  obtain ⟨hacc, hafter⟩ := M.accepts_of_closed hok hstep (hP g s hs) (m s).log
  refine ⟨hacc, ?_⟩
  rcases (m s).res with e | ⟨a, s'⟩
  · exact hH e _ hafter
  · exact hQ a _ s' hafter

/-- A computation whose events do not move the monitor keeps what is known of what it spares. -/
theorem of_spares {ω : Type w} {E : ε → Prop} {obs : σ → ω} {J : γ → ω → Prop}
    (h : Spares E obs m) (hM : ∀ g e, E e → M.ok g e ∧ M.step g e = g) :
    Triple M (fun g s => J g (obs s)) m (fun _ g s => J g (obs s)) fun _ _ => True := by
  intro g s hs
  have hlog : ∀ l : List ε, (∀ e ∈ l, E e) → M.Accepts g l ∧ M.after g l = g := by
    intro l hl
    induction l with
    | nil => exact ⟨trivial, rfl⟩
    | cons e l ih =>
      obtain ⟨he, hl⟩ := List.forall_mem_cons.mp hl
      obtain ⟨hok, hstep⟩ := hM g e he
      rw [M.accepts_cons, M.after_cons, hstep]
      exact ⟨⟨hok, (ih hl).1⟩, (ih hl).2⟩
  obtain ⟨hacc, hafter⟩ := hlog _ (h s).1
  refine ⟨hacc, ?_⟩
  rw [hafter]
  rcases hr : (m s).res with e | ⟨a, s'⟩
  · trivial
  · change J g (obs s')
    rw [h.ok hr]
    exact hs

/-- A triple about the log so far, from what a computation that returns has logged. With `history`
any relation between a log and a state is an assertion. -/
theorem of_log {P : List ε → σ → Prop} {Q : α → List ε → σ → Prop}
    (h : ∀ l s a s', P l s → (m s).res = .ok (a, s') → Q a (l ++ (m s).log) s') :
    Triple Monitor.history P m Q fun _ _ => True := by
  intro l s hs
  refine ⟨Monitor.history_accepts l _, ?_⟩
  rw [Monitor.history_after]
  rcases hr : (m s).res with e | ⟨a, s'⟩
  · trivial
  · exact h l s a s' hs hr

/-- A run that the triple speaks of and that returned. -/
theorem ok (h : Triple M P m Q H) {g : γ} {s s' : σ} {a : α} (hs : P g s)
    (hr : (m s).res = .ok (a, s')) : Q a (M.after g (m s).log) s' := by
  have he := (h g s hs).2
  rw [hr] at he
  exact he

end Triple

/-! ## Triples under an assumption

Here it is assumed that the log is accepted, where a triple claims it. So an event of a computation
gives something to work with and nothing to prove. -/

/-- From `P`, when the monitor allows all of `m`, it ends in `Q`, or halts in `H`. Here what the
monitor allows is a condition that a run may or may not meet, and nothing is said of the runs that
do not. -/
def Given (M : Monitor γ ε) (P : γ → σ → Prop) (m : Logged ε η σ α)
    (Q : α → γ → σ → Prop) (H : η → γ → Prop) : Prop :=
  ∀ g s, P g s → M.Accepts g (m s).log → Ends Q H (M.after g (m s).log) (m s).res

namespace Given

/-- Consequence. -/
theorem conseq (h : Given M P m Q H) (hP : ∀ g s, P' g s → P g s)
    (hQ : ∀ a g s, Q a g s → Q' a g s) : Given M P' m Q' H := by
  intro g s hs hacc
  have hr := h g s (hP g s hs) hacc
  rcases hm : (m s).res with e | ⟨a, s'⟩ <;> rw [hm] at hr
  · exact hr
  · exact hQ _ _ _ hr

theorem pre (h : Given M P m Q H) (hP : ∀ g s, P' g s → P g s) : Given M P' m Q H :=
  h.conseq hP fun _ _ _ hq => hq

theorem post (h : Given M P m Q H) (hQ : ∀ a g s, Q a g s → Q' a g s) : Given M P m Q' H :=
  h.conseq (fun _ _ hp => hp) hQ

/-- Sequencing. -/
theorem bind {R : α → γ → σ → Prop} {f : α → Logged ε η σ β} {Q : β → γ → σ → Prop}
    (hm : Given M P m R H) (hf : ∀ a, Given M (R a) (f a) Q H) : Given M P (m >>= f) Q H := by
  intro g s hs hacc
  rcases he : (m s).res with e | ⟨a, s'⟩
  · rw [bind_of_error he] at hacc ⊢
    have hr := hm g s hs hacc
    rw [he] at hr
    exact hr
  · rw [bind_of_ok he, M.accepts_append] at hacc
    have hr := hm g s hs hacc.1
    rw [he] at hr
    rw [bind_of_ok he, M.after_append]
    exact hf a _ s' hr hacc.2

protected theorem pure {a : α} (h : ∀ g s, P g s → Q a g s) :
    Given M P (pure a : Logged ε η σ α) Q H :=
  fun g s hs _ => h g s hs

protected theorem halt {e : η} (h : ∀ g s, P g s → H e g) :
    Given M P (halt e : Logged ε η σ α) Q H :=
  fun g s hs _ => h g s hs

/-- The event of a step is taken to be allowed. -/
protected theorem emit {e : ε} {Q : PUnit → γ → σ → Prop}
    (h : ∀ g s, P g s → M.ok g e → Q ⟨⟩ (M.step g e) s) :
    Given M P (emit e : Logged ε η σ PUnit) Q H :=
  fun g s hs hacc => h g s hs hacc.1

/-- An event, then the rest. -/
theorem emit_bind {e : ε} {f : PUnit → Logged ε η σ β} {Q : β → γ → σ → Prop} {R : γ → σ → Prop}
    (he : ∀ g s, P g s → M.ok g e → R (M.step g e) s) (hf : Given M R (f ⟨⟩) Q H) :
    Given M P (emit e >>= f) Q H :=
  bind (R := fun _ => R) (Given.emit he) fun _ => hf

protected theorem set {s' : σ} {Q : PUnit → γ → σ → Prop} (h : ∀ g s, P g s → Q ⟨⟩ g s') :
    Given M P (set s' : Logged ε η σ PUnit) Q H :=
  fun g s hs _ => h g s hs

/-- Reading the state names it for what follows. -/
theorem get_bind {f : σ → Logged ε η σ β} {Q : β → γ → σ → Prop}
    (h : ∀ s₀, Given M (fun g s => P g s ∧ s = s₀) (f s₀) Q H) : Given M P (get >>= f) Q H := by
  intro g s hs hacc
  rw [get_bind_apply] at hacc ⊢
  exact h s g s ⟨hs, rfl⟩ hacc

/-- A choice. -/
theorem ite {c : Prop} [Decidable c] {m m' : Logged ε η σ α} (h : c → Given M P m Q H)
    (h' : ¬ c → Given M P m' Q H) : Given M P (if c then m else m') Q H := by
  by_cases hc : c
  · rw [if_pos hc]
    exact h hc
  · rw [if_neg hc]
    exact h' hc

/-- A computation whose events do not move the monitor keeps what is known of what it spares. -/
theorem of_spares {ω : Type w} {E : ε → Prop} {obs : σ → ω} {J : γ → ω → Prop}
    (h : Spares E obs m) (hM : ∀ g e, E e → M.step g e = g) (hJ : ∀ e g x, J g x → H e g) :
    Given M (fun g s => J g (obs s)) m (fun _ g s => J g (obs s)) H := by
  intro g s hs _
  rw [M.after_eq_self hM (h s).1]
  rcases hr : (m s).res with e | ⟨a, s'⟩
  · exact hJ e g _ hs
  · change J g (obs s')
    rw [h.ok hr]
    exact hs

end Given

end Triples

end Logged
