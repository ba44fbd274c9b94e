import FastWasm.Logged

/-!
# Logged computations that may fail

A second way out beside the halt: a computation that fails (`goto err`) gives no value, but keeps
the state it reached and the events it wrote, and what called it goes on from there. Three parts:

* `Fallible ε η σ α`, the monad, and the relation `Runs m s a s'` that says that `m` succeeded, with
  one inversion lemma for each way of building a computation.
* `Part σ τ`, a component of a state that can be read and replaced, and `zoom`, which runs a
  computation over the component.
* `collect`, the loop that runs a computation a number of times, and the relation `Reads` of
  successive runs that describes it.

A program in this monad is reasoned about by rewriting. `Runs` of a program turns by `simp` into the
existence of the values that its parts read, and a statement about what it accepts is an equivalence
between that and a relation on the input. The same goes for `Halts`, and for membership in the log
(`mem_log_bind` and the others), so that what a program does before it fails can be talked about as
well.
-/

namespace Logged

universe u

/-- A logged computation that may also fail, which keeps its state and its events. Failing is not
halting: the caller decides what becomes of it. -/
def Fallible (ε η σ α : Type u) : Type u := Logged ε η σ (Option α)

namespace Fallible

variable {ε η σ τ α β : Type u}

/-! ## The monad

Over `Logged`: a value that may be missing, so that the state is there behind a failure as well. -/

/-- Succeed with a value. -/
protected def pure (a : α) : Fallible ε η σ α := fun s => ⟨[], .ok (some a, s)⟩

/-- Run `m`, then `f` on what it returned; a failure of `m` is a failure of the whole. -/
protected def bind (m : Fallible ε η σ α) (f : α → Fallible ε η σ β) : Fallible ε η σ β := fun s =>
  match (m s).res with
  | .error h => ⟨(m s).log, .error h⟩
  | .ok (none, s') => ⟨(m s).log, .ok (none, s')⟩
  | .ok (some a, s') => ⟨(m s).log ++ (f a s').log, (f a s').res⟩

instance : Monad (Fallible ε η σ) where
  pure := Fallible.pure
  bind := Fallible.bind

/-- Fail, with the state as it is. -/
def fail : Fallible ε η σ α := fun s => ⟨[], .ok (none, s)⟩

/-- Stop everything, the caller too. No state is left behind. -/
def halt (h : η) : Fallible ε η σ α := fun _ => ⟨[], .error h⟩

/-- Write one event. -/
def emit (e : ε) : Fallible ε η σ PUnit := fun s => ⟨[e], .ok (some ⟨⟩, s)⟩

/-- Read the state. -/
def get : Fallible ε η σ σ := fun s => ⟨[], .ok (some s, s)⟩

/-- Change the state. -/
def modify (f : σ → σ) : Fallible ε η σ PUnit := fun s => ⟨[], .ok (some ⟨⟩, f s)⟩

/-- Fail unless `p`. It is `if (!p) goto err`. -/
def check (p : Prop) [Decidable p] : Fallible ε η σ PUnit := if p then pure ⟨⟩ else fail

/-- Run `m` exactly `n` times and give the values. The first failure is a failure of the whole. -/
def collect (m : Fallible ε η σ α) : ℕ → Fallible ε η σ (List α)
  | 0 => pure []
  | n + 1 => do
    let a ← m
    let as ← collect m n
    pure (a :: as)

/-! ## Successful runs

`Runs` is what most is said with: a run that succeeds, with its value and the state behind it, and
nothing about its log. -/

/-- `m` succeeds from `s` with `a`, and leaves `s'`. What it logs on the way does not matter here.
-/
def Runs (m : Fallible ε η σ α) (s : σ) (a : α) (s' : σ) : Prop := (m s).res = .ok (some a, s')

/-- `m` halts from `s`. -/
def Halts (m : Fallible ε η σ α) (s : σ) (h : η) : Prop := (m s).res = .error h

variable {m : Fallible ε η σ α} {f : α → Fallible ε η σ β} {s s' s'' : σ} {a a' : α} {b : β}

theorem Runs.unique (h : Runs m s a s') (h' : Runs m s a' s'') : a = a' ∧ s' = s'' := by
  have he := h.symm.trans h'
  simpa using he

@[simp] theorem runs_pure {b : α} : Runs (pure b : Fallible ε η σ α) s a s' ↔ a = b ∧ s' = s := by
  change Except.ok (some b, s) = Except.ok (some a, s') ↔ _
  simp [eq_comm]

@[simp] theorem runs_fail : Runs (fail : Fallible ε η σ α) s a s' ↔ False := by
  simp [Runs, fail]

@[simp] theorem runs_halt {h : η} : Runs (halt h : Fallible ε η σ α) s a s' ↔ False := by
  simp [Runs, halt]

@[simp] theorem runs_emit {e : ε} {a : PUnit} :
    Runs (emit e : Fallible ε η σ PUnit) s a s' ↔ s' = s := by
  simp [Runs, emit, eq_comm]

@[simp] theorem runs_get {a : σ} : Runs (get : Fallible ε η σ σ) s a s' ↔ a = s ∧ s' = s := by
  simp [Runs, get, eq_comm]

@[simp] theorem runs_modify {g : σ → σ} {a : PUnit} :
    Runs (modify g : Fallible ε η σ PUnit) s a s' ↔ s' = g s := by
  simp [Runs, modify, eq_comm]

@[simp] theorem runs_ite {c : Prop} [Decidable c] {m' : Fallible ε η σ α} :
    Runs (if c then m else m') s a s' ↔ c ∧ Runs m s a s' ∨ ¬ c ∧ Runs m' s a s' := by
  by_cases hc : c <;> simp [hc]

@[simp] theorem runs_check {p : Prop} [Decidable p] {a : PUnit} :
    Runs (check p : Fallible ε η σ PUnit) s a s' ↔ p ∧ s' = s := by
  simp [check]

@[simp] theorem runs_bind :
    Runs (m >>= f) s b s' ↔ ∃ a s₁, Runs m s a s₁ ∧ Runs (f a) s₁ b s' := by
  change (Fallible.bind m f s).res = _ ↔ _
  rw [Fallible.bind]
  rcases hm : (m s).res with e | ⟨_ | a, s₁⟩
  · simp [Runs, hm]
  · simp [Runs, hm]
  · simp [Runs, hm]

theorem runs_bind_pure {g : α → β} :
    Runs (m >>= fun a => pure (g a)) s b s' ↔ ∃ a, Runs m s a s' ∧ b = g a := by
  simp only [runs_bind, runs_pure]
  refine ⟨?_, ?_⟩
  · rintro ⟨a, _, h, rfl, rfl⟩
    exact ⟨a, h, rfl⟩
  · rintro ⟨a, h, rfl⟩
    exact ⟨a, _, h, rfl, rfl⟩

/-! ## The result of a sequence

Besides success there are two ways for a sequence to end, and each is decided by the first
computation that ends so. -/

/-- After a success the second computation goes on, and its log is appended. -/
theorem bind_of_runs (h : Runs m s a s') :
    (m >>= f) s = ⟨(m s).log ++ (f a s').log, (f a s').res⟩ := by
  change Fallible.bind m f s = _
  rw [Fallible.bind, h]

theorem bind_res_of_runs (h : Runs m s a s') : ((m >>= f) s).res = (f a s').res := by
  rw [bind_of_runs h]

theorem get_bind_res {f : σ → Fallible ε η σ β} : ((get >>= f) s).res = (f s s).res :=
  bind_res_of_runs rfl

/-- After a failure nothing comes, and the state is that of the failure. -/
theorem bind_res_of_fails (h : (m s).res = .ok (none, s')) :
    ((m >>= f) s).res = .ok (none, s') := by
  change (Fallible.bind m f s).res = _
  rw [Fallible.bind, h]

/-- After a halt nothing comes either, and the halt is that of the whole. -/
theorem bind_of_halts {e : η} (h : Halts m s e) : (m >>= f) s = ⟨(m s).log, .error e⟩ := by
  change Fallible.bind m f s = _
  rw [Fallible.bind, h]

theorem bind_res_of_halts {e : η} (h : Halts m s e) : ((m >>= f) s).res = .error e := by
  rw [bind_of_halts h]

/-! ## Halting runs -/

variable {h : η}

@[simp] theorem halts_pure : Halts (pure a : Fallible ε η σ α) s h ↔ False := by
  change Except.ok (some a, s) = Except.error h ↔ _
  simp

@[simp] theorem halts_fail : Halts (fail : Fallible ε η σ α) s h ↔ False := by
  simp [Halts, fail]

@[simp] theorem halts_get : Halts (get : Fallible ε η σ σ) s h ↔ False := by
  simp [Halts, get]

@[simp] theorem halts_modify {g : σ → σ} :
    Halts (modify g : Fallible ε η σ PUnit) s h ↔ False := by
  simp [Halts, modify]

@[simp] theorem halts_ite {c : Prop} [Decidable c] {m' : Fallible ε η σ α} :
    Halts (if c then m else m') s h ↔ c ∧ Halts m s h ∨ ¬ c ∧ Halts m' s h := by
  by_cases hc : c <;> simp [hc]

@[simp] theorem halts_check {p : Prop} [Decidable p] :
    Halts (check p : Fallible ε η σ PUnit) s h ↔ False := by
  simp [check]

@[simp] theorem halts_bind :
    Halts (m >>= f) s h ↔ Halts m s h ∨ ∃ a s₁, Runs m s a s₁ ∧ Halts (f a) s₁ h := by
  change (Fallible.bind m f s).res = _ ↔ _
  rw [Fallible.bind]
  rcases hm : (m s).res with e | ⟨_ | a, s₁⟩
  · simp [Runs, Halts, hm]
  · simp [Runs, Halts, hm]
  · simp [Runs, Halts, hm]

/-! ## Logs -/

variable {e e' : ε}

@[simp] theorem mem_log_pure : e ∈ ((pure a : Fallible ε η σ α) s).log ↔ False :=
  List.mem_nil_iff e

@[simp] theorem mem_log_fail : e ∈ ((fail : Fallible ε η σ α) s).log ↔ False :=
  List.mem_nil_iff e

@[simp] theorem mem_log_halt : e ∈ ((halt h : Fallible ε η σ α) s).log ↔ False :=
  List.mem_nil_iff e

@[simp] theorem mem_log_emit : e ∈ ((emit e' : Fallible ε η σ PUnit) s).log ↔ e = e' :=
  List.mem_singleton

@[simp] theorem mem_log_get : e ∈ ((get : Fallible ε η σ σ) s).log ↔ False :=
  List.mem_nil_iff e

@[simp] theorem mem_log_modify {g : σ → σ} :
    e ∈ ((modify g : Fallible ε η σ PUnit) s).log ↔ False :=
  List.mem_nil_iff e

@[simp] theorem mem_log_ite {c : Prop} [Decidable c] {m' : Fallible ε η σ α} :
    e ∈ ((if c then m else m') s).log ↔ c ∧ e ∈ (m s).log ∨ ¬ c ∧ e ∈ (m' s).log := by
  by_cases hc : c <;> simp [hc]

@[simp] theorem mem_log_check {p : Prop} [Decidable p] :
    e ∈ ((check p : Fallible ε η σ PUnit) s).log ↔ False := by
  rw [check, mem_log_ite, mem_log_pure, mem_log_fail, and_false, and_false, or_false]

/-- What a sequence logs: the events of the first part, and those of the second if the first
succeeds. So an event of the second part comes with a successful run of the first. -/
@[simp] theorem mem_log_bind :
    e ∈ ((m >>= f) s).log ↔ e ∈ (m s).log ∨ ∃ a s₁, Runs m s a s₁ ∧ e ∈ (f a s₁).log := by
  change e ∈ (Fallible.bind m f s).log ↔ _
  rw [Fallible.bind]
  rcases hm : (m s).res with h | ⟨_ | a, s₁⟩
  · simp [Runs, hm]
  · simp [Runs, hm]
  · simp [Runs, hm]

/-! ## Successive runs

A loop that collects the values of its rounds is a list of runs, one behind the other, with a state
between any two of them. -/

/-- Running `m` again and again gives the values `as` and leads from the first state to the last.
Every statement about a loop over entries is one about this relation. -/
inductive Reads (m : Fallible ε η σ α) : σ → List α → σ → Prop
  /-- no run -/
  | nil (s : σ) : Reads m s [] s
  /-- one run, and the ones after it -/
  | cons {s s₁ s' : σ} {a : α} {as : List α} (head : Runs m s a s₁) (tail : Reads m s₁ as s') :
    Reads m s (a :: as) s'

@[simp] theorem reads_nil : Reads m s [] s' ↔ s' = s := by
  refine ⟨?_, ?_⟩
  · rintro ⟨⟩
    rfl
  · rintro rfl
    exact .nil _

@[simp] theorem reads_cons {as : List α} :
    Reads m s (a :: as) s' ↔ ∃ s₁, Runs m s a s₁ ∧ Reads m s₁ as s' := by
  refine ⟨?_, ?_⟩
  · rintro (_ | ⟨head, tail⟩)
    exact ⟨_, head, tail⟩
  · rintro ⟨s₁, head, tail⟩
    exact .cons head tail

/-- Successive runs as many times give the same values and end in the same state, since a
computation is a function of its state. -/
theorem Reads.unique {as as' : List α} (h : Reads m s as s') (h' : Reads m s as' s'')
    (hlen : as.length = as'.length) : as = as' ∧ s' = s'' := by
  induction h generalizing as' with
  | nil s =>
    obtain rfl := List.length_eq_zero_iff.mp hlen.symm
    exact ⟨rfl, (reads_nil.mp h').symm⟩
  | cons head tail ih =>
    cases h' with
    | nil => simp at hlen
    | cons head' tail' =>
      obtain ⟨rfl, rfl⟩ := head.unique head'
      obtain ⟨rfl, rfl⟩ := ih tail' (by simpa using hlen)
      exact ⟨rfl, rfl⟩

/-- Computations with the same runs have the same successive runs. -/
theorem reads_congr {m' : Fallible ε η σ α} (h : ∀ s a s', Runs m s a s' ↔ Runs m' s a s')
    {as : List α} : Reads m s as s' ↔ Reads m' s as s' := by
  induction as generalizing s with
  | nil => simp
  | cons a as ih => simp only [reads_cons, h, ih]

/-- What one run preserves, successive runs preserve. It is the induction rule of a loop whose
values do not matter. -/
theorem Reads.induct {P : σ → Prop} {as : List α} (h : Reads m s as s')
    (step : ∀ s a s', Runs m s a s' → P s → P s') (hs : P s) : P s' := by
  induction h with
  | nil => exact hs
  | cons head tail ih => exact ih (step _ _ _ head hs)

/-- The loop is as many successive runs: it succeeds exactly when they do, with their values. -/
@[simp] theorem runs_collect {n : ℕ} {as : List α} :
    Runs (collect m n) s as s' ↔ as.length = n ∧ Reads m s as s' := by
  induction n generalizing s as s' with
  | zero =>
    rw [collect, runs_pure]
    refine ⟨?_, ?_⟩
    · rintro ⟨rfl, rfl⟩
      exact ⟨rfl, .nil _⟩
    · rintro ⟨hlen, h⟩
      obtain rfl := List.length_eq_zero_iff.mp hlen
      exact ⟨rfl, reads_nil.mp h⟩
  | succ n ih =>
    rw [collect]
    simp only [runs_bind, ih, runs_pure]
    refine ⟨?_, ?_⟩
    · rintro ⟨a, s₁, h, as', s₂, ⟨rfl, h'⟩, rfl, rfl⟩
      exact ⟨rfl, .cons h h'⟩
    · rintro ⟨hlen, h⟩
      cases h with
      | nil => simp at hlen
      | cons head tail =>
        exact ⟨_, _, head, _, _, ⟨by simpa using hlen, tail⟩, rfl, rfl⟩

/-- What is so of a run of the loop when it is so of one of the runs it makes, with those before
it. -/
theorem exists_reads_succ {n : ℕ} {p : σ → Prop} :
    (∃ as s', as.length < n + 1 ∧ Reads m s as s' ∧ p s') ↔
      p s ∨ ∃ a s₁, Runs m s a s₁ ∧ ∃ as s', as.length < n ∧ Reads m s₁ as s' ∧ p s' := by
  refine ⟨?_, ?_⟩
  · rintro ⟨_ | ⟨a, as⟩, s', hlen, hr, hp⟩
    · obtain rfl := reads_nil.mp hr
      exact .inl hp
    · obtain ⟨s₁, hr₁, hr⟩ := reads_cons.mp hr
      exact .inr ⟨a, s₁, hr₁, as, s', Nat.lt_of_succ_lt_succ hlen, hr, hp⟩
  · rintro (hp | ⟨a, s₁, hr₁, as, s', hlen, hr, hp⟩)
    · exact ⟨[], s, Nat.succ_pos n, .nil s, hp⟩
    · exact ⟨a :: as, s', Nat.succ_lt_succ hlen, .cons hr₁ hr, hp⟩

/-- The loop halts where one of its runs does, with successful ones before it. -/
theorem halts_collect {n : ℕ} :
    Halts (collect m n) s h ↔ ∃ as s', as.length < n ∧ Reads m s as s' ∧ Halts m s' h := by
  induction n generalizing s with
  | zero => simp [collect]
  | succ n ih =>
    rw [exists_reads_succ, collect]
    simp only [halts_bind, halts_pure, and_false, exists_false, or_false, ih]

/-- The loop logs what its runs log: an event of the loop is one of a run that comes behind fewer
than `n` successful ones. -/
theorem mem_log_collect {n : ℕ} :
    e ∈ (collect m n s).log ↔ ∃ as s', as.length < n ∧ Reads m s as s' ∧ e ∈ (m s').log := by
  induction n generalizing s with
  | zero => simp [collect]
  | succ n ih =>
    rw [exists_reads_succ, collect]
    simp only [mem_log_bind, mem_log_pure, and_false, exists_false, or_false, ih]

/-- Successive runs in two parts, with a state between them. -/
theorem reads_append {as as' : List α} :
    Reads m s (as ++ as') s' ↔ ∃ s₁, Reads m s as s₁ ∧ Reads m s₁ as' s' := by
  induction as generalizing s with
  | nil => simp
  | cons a as ih =>
    simp only [List.cons_append, reads_cons, ih]
    refine ⟨?_, ?_⟩
    · rintro ⟨s₁, h, s₂, h₁, h₂⟩
      exact ⟨s₂, ⟨s₁, h, h₁⟩, h₂⟩
    · rintro ⟨s₂, ⟨s₁, h, h₁⟩, h₂⟩
      exact ⟨s₁, h, s₂, h₁, h₂⟩

/-! ## Other events -/

variable {ε' : Type u}

/-- The same computation, its events renamed. Parts that log different events can then be put
together. -/
def mapLog (g : ε → ε') (m : Fallible ε η σ α) : Fallible ε' η σ α := fun s =>
  ⟨(m s).log.map g, (m s).res⟩

/-- With its events renamed a computation is followed by the same results. -/
theorem mapLog_bind_res {g : ε → ε'} {f' : α → Fallible ε' η σ β}
    (h : ∀ a s', Runs m s a s' → (f' a s').res = (f a s').res) :
    ((mapLog g m >>= f') s).res = ((m >>= f) s).res := by
  change (Fallible.bind (mapLog g m) f' s).res = (Fallible.bind m f s).res
  rw [Fallible.bind, Fallible.bind, mapLog]
  rcases hm : (m s).res with e | ⟨_ | a, s₁⟩
  · rfl
  · rfl
  · exact h a s₁ hm

end Fallible

/-! ## Components of a state

A computation over a component of a state, as one over the state. What it leaves alone is everything
else, which is stated by the laws of a component. -/

/-- A component of the states `σ`: reading it and replacing it obey the lens laws. A cursor inside
the state of a loader is one. -/
structure Part (σ τ : Type u) where
  /-- the component of a state -/
  get : σ → τ
  /-- the state with the component replaced -/
  put : τ → σ → σ
  /-- what was put is there -/
  get_put : ∀ t s, get (put t s) = t
  /-- the last one put counts -/
  put_put : ∀ t t' s, put t (put t' s) = put t s
  /-- putting back what is there changes nothing -/
  put_get : ∀ s, put (get s) s = s

namespace Part

variable {σ τ υ : Type u}

attribute [simp] get_put put_put put_get

/-- A component of a component. -/
def comp (p : Part σ τ) (q : Part τ υ) : Part σ υ where
  get s := q.get (p.get s)
  put u s := p.put (q.put u (p.get s)) s
  get_put u s := by rw [p.get_put, q.get_put]
  put_put u u' s := by rw [p.get_put, p.put_put, q.put_put]
  put_get s := by rw [q.put_get, p.put_get]

/-- Two components that do not overlap: replacing the one does not change the other, in either
order. -/
structure Apart (p : Part σ τ) (q : Part σ υ) : Prop where
  /-- replacing the second leaves the first -/
  get_put : ∀ t s, p.get (q.put t s) = p.get s
  /-- replacing the first leaves the second -/
  get_put' : ∀ t s, q.get (p.put t s) = q.get s
  /-- the order of two replacements does not matter -/
  comm : ∀ t t' s, p.put t (q.put t' s) = q.put t' (p.put t s)

/-- What is apart from a component is apart from its components. -/
theorem Apart.comp {ω : Type u} {p : Part σ τ} {q : Part σ υ} (h : Apart p q) (r : Part υ ω) :
    Apart p (q.comp r) where
  get_put t s := h.get_put _ s
  get_put' t s := congrArg r.get (h.get_put' t s)
  comm t t' s := by
    change p.put t (q.put _ s) = q.put (r.put t' (q.get (p.put t s))) (p.put t s)
    rw [h.comm, h.get_put']

end Part

namespace Fallible

variable {ε η σ τ υ α β : Type u} {m : Fallible ε η τ α} {p : Part σ τ} {s s' : σ} {a : α}

/-- Run `m` on a component of the state; the rest stays. -/
def zoom (p : Part σ τ) (m : Fallible ε η τ α) : Fallible ε η σ α := fun s =>
  match (m (p.get s)).res with
  | .error h => ⟨(m (p.get s)).log, .error h⟩
  | .ok (a, t) => ⟨(m (p.get s)).log, .ok (a, p.put t s)⟩

@[simp] theorem runs_zoom :
    Runs (zoom p m) s a s' ↔ ∃ t, Runs m (p.get s) a t ∧ s' = p.put t s := by
  rw [Runs, zoom]
  rcases hm : (m (p.get s)).res with e | ⟨_ | a, t⟩
  · simp [Runs, hm]
  · simp [Runs, hm]
  · simp [Runs, hm, eq_comm]

@[simp] theorem halts_zoom {h : η} : Halts (zoom p m) s h ↔ Halts m (p.get s) h := by
  rw [Halts, zoom]
  rcases hm : (m (p.get s)).res with e | ⟨_ | a, t⟩
  · simp [Halts, hm]
  · simp [Halts, hm]
  · simp [Halts, hm]

@[simp] theorem log_zoom : (zoom p m s).log = (m (p.get s)).log := by
  rw [zoom]
  rcases hm : (m (p.get s)).res with e | ⟨a, t⟩ <;> rfl

/-- A loop that reads values over one component and works them into the rest of the state is a loop
that reads the values, and one update with all of them. The work must leave the component alone and
go well with replacing it. -/
theorem reads_fold {g : α → σ → σ} (hget : ∀ a s, p.get (g a s) = p.get s)
    (hput : ∀ a t s, g a (p.put t s) = p.put t (g a s)) {us : List PUnit} :
    Reads (zoom p m >>= fun a => modify (g a)) s us s' ↔
      ∃ as t, as.length = us.length ∧ Reads m (p.get s) as t ∧
        s' = as.foldl (fun s a => g a s) (p.put t s) := by
  induction us generalizing s with
  | nil =>
    simp only [reads_nil, List.length_nil, List.length_eq_zero_iff]
    refine ⟨?_, ?_⟩
    · rintro rfl
      exact ⟨[], _, rfl, .nil _, (p.put_get _).symm⟩
    · rintro ⟨_, t, rfl, h, rfl⟩
      rw [reads_nil.mp h, p.put_get, List.foldl_nil]
  | cons _ us ih =>
    have hstep (a : α) (t t' : τ) : p.put t' (g a (p.put t s)) = g a (p.put t' s) := by
      rw [← hput, p.put_put]
    simp only [reads_cons, runs_bind, runs_zoom, runs_modify, ih]
    refine ⟨?_, ?_⟩
    · rintro ⟨_, ⟨a, _, ⟨t, h, rfl⟩, rfl⟩, as, t', hlen, h', rfl⟩
      rw [hget, p.get_put] at h'
      exact ⟨a :: as, t', by simp [hlen], .cons h h', by rw [hstep, List.foldl_cons]⟩
    · rintro ⟨as, t', hlen, h, rfl⟩
      cases h with
      | nil => simp at hlen
      | @cons _ t _ a as head tail =>
        refine ⟨_, ⟨a, _, ⟨t, head, rfl⟩, rfl⟩, as, t', by simpa using hlen, ?_, ?_⟩
        · rwa [hget, p.get_put]
        · rw [hstep, List.foldl_cons]

/-- Add a value to the end of a list in the state. -/
def push (q : Part σ (List α)) (a : α) : Fallible ε η σ PUnit :=
  modify fun s => q.put (q.get s ++ [a]) s

theorem foldl_push (q : Part σ (List α)) (as : List α) (s : σ) :
    as.foldl (fun s a => q.put (q.get s ++ [a]) s) s = q.put (q.get s ++ as) s := by
  induction as generalizing s with
  | nil => rw [List.foldl_nil, List.append_nil, q.put_get]
  | cons a as ih => rw [List.foldl_cons, ih, q.get_put, q.put_put, List.append_assoc]; rfl

/-- A loop that reads values over one component and adds them to a list in another. -/
theorem reads_push {q : Part σ (List α)} (hpq : Part.Apart p q) {us : List PUnit} :
    Reads (zoom p m >>= push q) s us s' ↔
      ∃ as t, as.length = us.length ∧ Reads m (p.get s) as t ∧
        s' = q.put (q.get s ++ as) (p.put t s) := by
  refine (reads_fold (g := fun a s => q.put (q.get s ++ [a]) s) (fun _ _ => hpq.get_put _ _)
    fun a t s => by simp only [hpq.get_put', hpq.comm]).trans ?_
  simp only [foldl_push, hpq.get_put']

end Fallible

end Logged
